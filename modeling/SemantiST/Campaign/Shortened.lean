import SemantiST.Campaign.Encoding
import SemantiST.Lib.Shrink

/-!
# What shortening leaves of a testcase

With a probe that always answers the same and no deadline, `minimize` ends with the testcase it was given
or with one that shows the same candidate in some of its frames.
-/

namespace SemantiST.Campaign

open Lib Corpus

/-! ## Programs without failure -/

/-- A probe that always answers the same, with no deadline. -/
def steady (answer : Text → Observation) : World where
  observe := fun _ => answer
  inTime := fun _ => true

/-- The program comes to this result, whatever was probed before. -/
def Gives {α : Type} (x : Shortening α) (a : α) : Prop :=
  ∀ log, ∃ log', (ExceptT.run x).run log = (.ok a, log')

section Gives

variable {α β : Type} {x : Shortening α} {f : α → Shortening β} {a a' : α} {b : β}

theorem Gives.pure (a : α) : Gives (Pure.pure a) a := fun log => ⟨log, rfl⟩

theorem Gives.bind (h : Gives x a) (hf : Gives (f a) b) : Gives (x >>= f) b := by
  intro log
  obtain ⟨log₁, h⟩ := h log
  obtain ⟨log₂, hf⟩ := hf log₁
  refine ⟨log₂, ?_⟩
  rw [ExceptT.run_bind, StateT.run_bind, h]
  exact hf

theorem Gives.unique (h : Gives x a) (h' : Gives x a') : a = a' := by
  obtain ⟨log, h⟩ := h {}
  obtain ⟨log', h'⟩ := h' {}
  rw [h] at h'
  exact Except.ok.inj (congrArg Prod.fst h')

end Gives

section Deletion

variable {u : UnicodeData} {abi : TargetAbi} {answer : Text → Observation} {index : RuntimeIndex}
  {signature : Text × Option ℕ × Option Source} {original : TestCase}

variable (answer index signature) in
/-- The probe of a testcase shows the candidate. -/
def shows (testcase : Text) : Bool :=
  (classify (answer testcase) index).map Info.minimizeSignature == some signature

variable (u abi answer index signature original) in
/-- The frames have a text, and it shows the candidate. -/
def framesShow (frames : List Frame) : Bool :=
  match encode u abi original frames with
  | .error _ => false
  | .ok data => shows answer index signature data

theorem gives_boundedProbe (testcase : Text) :
    Gives (boundedProbe (steady answer) testcase) (answer testcase) :=
  fun _ => ⟨_, rfl⟩

variable (u abi answer index signature original) in
theorem gives_triggers (frames : List Frame) :
    Gives (triggers u abi (steady answer) index signature original frames)
      (framesShow u abi answer index signature original frames) := by
  unfold triggers framesShow
  cases encode u abi original frames with
  | error e => exact Gives.pure false
  | ok data => exact (gives_boundedProbe data).bind (Gives.pure _)

/-! ## Deletion -/

variable (u abi answer index signature original) in
/-- The round of deletion as a sweep. -/
abbrev sweepFrames : List Frame × ℕ → Option (List Frame × ℕ) :=
  sweepStep (framesShow u abi answer index signature original) blocks

theorem blocks_pos : ∀ block ∈ blocks, 0 < block := by decide

variable (u abi answer index signature original) in
theorem gives_deleteBlock (frames : List Frame) (place : ℕ) (bs : List ℕ) :
    Gives (deleteBlock u abi (steady answer) index signature original frames place bs)
      ((firstBlock (framesShow u abi answer index signature original) bs frames place).map
        fun block => (without frames place block, block)) := by
  induction bs with
  | nil => exact Gives.pure none
  | cons block rest ih =>
    rw [deleteBlock, ← without, firstBlock, List.find?_cons]
    by_cases hskip : frames.length < place + block ∨ without frames place block = []
    · rw [decide_eq_false]
      · rw [if_pos hskip]
        exact ih
      · rintro ⟨hfits, hne, -⟩
        rcases hskip with hlong | hnil
        · omega
        · rw [hnil] at hne
          cases hne
    · rw [if_neg hskip]
      obtain ⟨hfits, hne⟩ := not_or.1 hskip
      refine (gives_triggers u abi answer index signature original _).bind ?_
      by_cases hshow : framesShow u abi answer index signature original (without frames place block) = true
      · rw [if_pos hshow, decide_eq_true
          ⟨Nat.le_of_not_lt hfits, List.isEmpty_eq_false_iff.2 hne, hshow⟩]
        exact Gives.pure _
      · rw [if_neg hshow, decide_eq_false fun h => hshow h.2.2]
        exact ih

variable (u abi answer index signature original) in
/-- The loop over the places is a sweep that counts what it leaves out. -/
theorem gives_deleteFrames (fuel : ℕ) (frames : List Frame) (place removed : ℕ) : ∃ removed',
    Gives (deleteFrames u abi (steady answer) index signature original fuel frames place removed)
      ((loop (sweepFrames u abi answer index signature original) fuel (frames, place)).1, removed') ∧
    removed' + (loop (sweepFrames u abi answer index signature original) fuel (frames, place)).1.length =
      removed + frames.length := by
  induction fuel generalizing frames place removed with
  | zero => exact ⟨removed, Gives.pure _, rfl⟩
  | succ fuel ih =>
    rw [deleteFrames, loop, sweepFrames, sweepStep]
    by_cases hlt : place < frames.length
    · rw [if_pos hlt, if_pos hlt]
      have hgives := gives_deleteBlock u abi answer index signature original frames place blocks
      cases hblock : firstBlock (framesShow u abi answer index signature original) blocks frames place with
      | none =>
        rw [hblock] at hgives
        obtain ⟨removed', hrest, hcount⟩ := ih frames (place + 1) removed
        exact ⟨removed', hgives.bind hrest, hcount⟩
      | some block =>
        rw [hblock] at hgives
        obtain ⟨removed', hrest, hcount⟩ := ih (without frames place block) place (removed + block)
        obtain ⟨-, hfits, -⟩ := firstBlock_eq_some hblock
        refine ⟨removed', hgives.bind hrest, hcount.trans ?_⟩
        rw [length_without hfits]
        omega
    · rw [if_neg hlt, if_neg hlt]
      exact ⟨removed, Gives.pure _, rfl⟩

variable (u abi answer index signature original) in
/-- The rounds leave some of the frames.  They end with a round that changes nothing, unless each of them
left out a frame. -/
theorem gives_deleteRounds (rounds : ℕ) (frames : List Frame) (removed : ℕ) : ∃ kept removed',
    Gives (deleteRounds u abi (steady answer) index signature original rounds frames removed)
      (kept, removed') ∧
    Left (framesShow u abi answer index signature original) frames kept ∧
    removed' + kept.length = removed + frames.length ∧
    (Gives (deleteFrames u abi (steady answer) index signature original kept.length kept 0 removed')
        (kept, removed') ∨ removed + rounds ≤ removed') := by
  induction rounds generalizing frames removed with
  | zero => exact ⟨frames, removed, Gives.pure _, Left.refl _ _, rfl, .inr (Nat.le_refl _)⟩
  | succ rounds ih =>
    obtain ⟨removed₁, hsweep, hcount₁⟩ := gives_deleteFrames u abi answer index signature original frames.length frames 0 removed
    set swept := loop (sweepFrames u abi answer index signature original) frames.length (frames, 0)
    have hleft₁ : Left (framesShow u abi answer index signature original) frames swept.1 :=
      left_sweep (sweep_ends _ blocks_pos (s := (frames, 0)) (Nat.le_refl _))
    by_cases hsame : removed₁ = removed
    · refine ⟨swept.1, removed₁, hsweep.bind ?_, hleft₁, hcount₁, .inl ?_⟩
      · dsimp only
        rw [if_pos hsame]
        exact Gives.pure _
      · have hkept : swept.1 = frames := hleft₁.sublist.eq_of_length (by omega)
        rw [hsame, hkept] at hsweep ⊢
        exact hsweep
    · have hle := hleft₁.sublist.length_le
      obtain ⟨kept, removed₂, hrest, hleft₂, hcount₂, hend⟩ := ih swept.1 removed₁
      refine ⟨kept, removed₂, hsweep.bind ?_, hleft₁.trans hleft₂, hcount₂.trans hcount₁, ?_⟩
      · dsimp only
        rw [if_neg hsame]
        exact hrest
      · exact hend.imp_right fun h => by omega

/-- **A round that changes nothing shows that no single frame can be left out.** -/
theorem framesShow_eraseIdx {kept : List Frame} {removed place : ℕ}
    (h : Gives (deleteFrames u abi (steady answer) index signature original kept.length kept 0 removed)
      (kept, removed)) (hlong : 1 < kept.length) (hplace : place < kept.length) :
    framesShow u abi answer index signature original (kept.eraseIdx place) = false := by
  obtain ⟨removed', hgives, -⟩ := gives_deleteFrames u abi answer index signature original kept.length kept 0 removed
  have hsame := congrArg Prod.fst (hgives.unique h)
  exact test_eraseIdx_eq_false blocks_pos (by decide)
    (sweep_ends _ blocks_pos (s := (kept, 0)) (Nat.le_refl _)) (congrArg List.length hsame) hlong hplace

/-! ## Simpler values -/

/-- What the simplification may put in place of a value. -/
def SimpleValue (abi : TargetAbi) (name value : Text) : Prop :=
  (∃ p ∈ abi.params, p.name = name ∧ value = p.spec.defaultFor) ∨ value = "0".toList ∨ value = "1".toList

/-- The second frame is the first one with some values made simple. -/
structure Simpler (abi : TargetAbi) (f f' : Frame) : Prop where
  index : f'.index = f.index
  dt : f'.dtNs = f.dtNs
  values : ∀ name : Text, f'.values[name]? = f.values[name]? ∨
    (name ∈ f.values ∧ ∃ value, f'.values[name]? = some value ∧ SimpleValue abi name value)

theorem Simpler.refl (f : Frame) : Simpler abi f f := ⟨rfl, rfl, fun _ => .inl rfl⟩

theorem Simpler.mem_iff {f f' : Frame} (h : Simpler abi f f') (name : Text) :
    name ∈ f'.values ↔ name ∈ f.values := by
  rcases h.values name with hsame | ⟨hmem, value, hvalue, -⟩
  · rw [Std.ExtTreeMap.mem_iff_isSome_getElem?, Std.ExtTreeMap.mem_iff_isSome_getElem?, hsame]
  · refine iff_of_true ?_ hmem
    rw [Std.ExtTreeMap.mem_iff_isSome_getElem?, hvalue]
    rfl

theorem Simpler.trans {f f' f'' : Frame} (h : Simpler abi f f') (h' : Simpler abi f' f'') :
    Simpler abi f f'' where
  index := h'.index.trans h.index
  dt := h'.dt.trans h.dt
  values := fun name => by
    rcases h'.values name with hsame | ⟨hmem, hsimple⟩
    · rw [hsame]
      exact h.values name
    · exact .inr ⟨(h.mem_iff name).1 hmem, hsimple⟩

theorem SimpleValue.plain {name value : Text} (h : SimpleValue abi name value) : Plain value := by
  rcases h with ⟨p, -, -, rfl⟩ | rfl | rfl
  · exact plain_defaultFor p.spec
  · decide
  · decide

theorem Simpler.fits {f f' : Frame} (h : Simpler abi f f') (hf : Fits abi f) : Fits abi f' where
  names := fun k => (h.mem_iff k).trans (hf.names k)
  plain := fun k v hv => by
    rcases h.values k with hsame | ⟨-, value, hvalue, hsimple⟩
    · exact hf.plain k v (hsame.symm.trans hv)
    · obtain rfl := Option.some.inj (hvalue.symm.trans hv)
      exact hsimple.plain
  dt := by
    rw [h.dt]
    exact hf.dt

theorem mem_simplerValues {name current value : Text} (h : value ∈ simplerValues abi name current)
    (hne : value ≠ current) : SimpleValue abi name value := by
  rcases List.mem_cons.1 h with rfl | h
  · cases hfound : abi.params.find? fun param => param.name = name with
    | none =>
      rw [hfound] at hne
      exact absurd rfl hne
    | some p =>
      have hname : p.name = name := of_decide_eq_true (List.find?_some hfound :)
      exact .inl ⟨p, List.mem_of_find?_eq_some hfound, hname, rfl⟩
  · split at h
    · cases h
    · exact .inr (by simpa using h)

theorem forall₂_trans {α : Type} {R : α → α → Prop} (htrans : ∀ a b c, R a b → R b c → R a c)
    {l l' l'' : List α} (h : List.Forall₂ R l l') (h' : List.Forall₂ R l' l'') : List.Forall₂ R l l'' := by
  induction h generalizing l'' with
  | nil => exact h'
  | cons hfirst _ ih =>
    cases h' with
    | cons hfirst' hrest' => exact .cons (htrans _ _ _ hfirst hfirst') (ih hrest')

/-- One element changes as it may, the others stay. -/
theorem forall₂_modify {α : Type} {R : α → α → Prop} {g : α → α} (hrefl : ∀ a, R a a) {l : List α}
    {place : ℕ} (hg : ∀ a, l[place]? = some a → R a (g a)) : List.Forall₂ R l (l.modify place g) := by
  induction l generalizing place with
  | nil =>
    rw [List.modify_nil]
    exact .nil
  | cons a l ih =>
    cases place with
    | zero => exact .cons (hg a rfl) (List.forall₂_same.2 fun b _ => hrefl b)
    | succ place => exact .cons (hrefl a) (ih hg)

theorem simpler_setValue {frames : List Frame} {place : ℕ} {name value current : Text}
    (hcurrent : ((frames[place]?).bind fun frame => frame.values[name]?) = some current)
    (hvalue : SimpleValue abi name value) :
    List.Forall₂ (Simpler abi) frames (setValue frames place name value) := by
  refine forall₂_modify Simpler.refl fun f hf => ⟨rfl, rfl, fun k => ?_⟩
  rw [hf, Option.bind_some] at hcurrent
  by_cases hk : name = k
  · subst hk
    refine .inr ⟨?_, value, ?_, hvalue⟩
    · rw [Std.ExtTreeMap.mem_iff_isSome_getElem?, hcurrent]
      rfl
    · rw [getElem?_insert_eq, if_pos rfl]
  · refine .inl ?_
    rw [getElem?_insert_eq, if_neg hk]

variable (u abi answer index signature original) in
theorem gives_simplifyValue (frames : List Frame) (place : ℕ) (name current : Text)
    (candidates : List Text) : ∃ result,
    Gives (simplifyValue u abi (steady answer) index signature original frames place name current candidates)
      result ∧
    ∀ frames' ∈ result, framesShow u abi answer index signature original frames' = true ∧
      ∃ value ∈ candidates, value ≠ current ∧ frames' = setValue frames place name value := by
  induction candidates with
  | nil => exact ⟨none, Gives.pure _, nofun⟩
  | cons value rest ih =>
    obtain ⟨result, hrest, hresult⟩ := ih
    have hlater : ∀ frames' ∈ result, framesShow u abi answer index signature original frames' = true ∧
        ∃ value' ∈ value :: rest, value' ≠ current ∧ frames' = setValue frames place name value' := by
      intro frames' hframes'
      obtain ⟨hshow, value', hmem, hrest⟩ := hresult frames' hframes'
      exact ⟨hshow, value', List.mem_cons_of_mem _ hmem, hrest⟩
    rw [simplifyValue]
    by_cases hsame : value = current
    · rw [if_pos hsame]
      exact ⟨result, hrest, hlater⟩
    · rw [if_neg hsame]
      have htriggers := gives_triggers u abi answer index signature original (setValue frames place name value)
      cases hshow : framesShow u abi answer index signature original (setValue frames place name value) with
      | true =>
        rw [hshow] at htriggers
        refine ⟨some (setValue frames place name value), htriggers.bind (Gives.pure _), ?_⟩
        intro frames' hframes'
        obtain rfl := Option.some.inj hframes'
        exact ⟨hshow, value, List.mem_cons_self, hsame, rfl⟩
      | false =>
        rw [hshow] at htriggers
        exact ⟨result, htriggers.bind hrest, hlater⟩

variable (u abi answer index signature original) in
theorem gives_simplifyValues (frames : List Frame) (simplified : ℕ) (places : List (ℕ × Text)) :
    ∃ frames' simplified',
      Gives (simplifyValues u abi (steady answer) index signature original frames simplified places)
        (frames', simplified') ∧
      List.Forall₂ (Simpler abi) frames frames' ∧
      (frames' = frames ∨ framesShow u abi answer index signature original frames' = true) := by
  induction places generalizing frames simplified with
  | nil => exact ⟨frames, simplified, Gives.pure _, List.forall₂_same.2 fun f _ => Simpler.refl f, .inl rfl⟩
  | cons entry rest ih =>
    obtain ⟨place, name⟩ := entry
    rw [simplifyValues]
    cases hcurrent : (frames[place]?).bind fun frame => frame.values[name]? with
    | none => exact ih frames simplified
    | some current =>
      obtain ⟨result, hgives, hresult⟩ := gives_simplifyValue u abi answer index signature original frames place name current
        (simplerValues abi name current)
      cases result with
      | none =>
        obtain ⟨frames', simplified', hrest, hframes'⟩ := ih frames simplified
        exact ⟨frames', simplified', hgives.bind hrest, hframes'⟩
      | some changed =>
        obtain ⟨hshow, value, hmem, hne, rfl⟩ := hresult changed rfl
        obtain ⟨frames', simplified', hrest, hsimpler, hshow'⟩ :=
          ih (setValue frames place name value) (simplified + 1)
        have hfirst := simpler_setValue hcurrent (mem_simplerValues hmem hne)
        refine ⟨frames', simplified', hgives.bind hrest, ?_, .inr ?_⟩
        · exact forall₂_trans (R := Simpler abi) (fun _ _ _ => Simpler.trans) hfirst hsimpler
        · rcases hshow' with rfl | hshow'
          · exact hshow
          · exact hshow'

end Deletion

/-! ## The result -/

section Result

variable {u : UnicodeData} {abi : TargetAbi} {answer : Text → Observation} {index : RuntimeIndex}
  {signature : Text × Option ℕ × Option Source}

/-- A shortened testcase: deletion kept some of the frames, in their order, simplification changed values
of these only, and the result is their text, which shows the candidate. -/
structure Reduced (u : UnicodeData) (abi : TargetAbi) (answer : Text → Observation) (index : RuntimeIndex)
    (signature : Text × Option ℕ × Option Source) (original : TestCase) (kept frames : List Frame)
    (removed simplified : ℕ) (m : Minimized) : Prop where
  shows : (classify (answer m.testcase) index).map Info.minimizeSignature = some signature
  encoded : encode u abi original frames = .ok m.testcase
  read : parse u abi m.testcase = .ok (reframed original frames)
  counts : m.frames = frames.length ∧ m.removed = removed ∧ m.simplified = simplified
  sublist : kept.Sublist original.frames
  dropped : removed + kept.length = original.frames.length
  simpler : List.Forall₂ (Simpler abi) kept frames

/-- What `minimize` does with the frames that deletion and simplification leave: their text is the result if
its probe shows the candidate.  Otherwise the testcase stays as it was; then no frame was left out and no
value changed. -/
structure Minimizes (u : UnicodeData) (abi : TargetAbi) (answer : Text → Observation) (index : RuntimeIndex)
    (signature : Text × Option ℕ × Option Source) (testcase : Text) (maxRounds : ℕ) (original : TestCase)
    (kept frames : List Frame) (removed simplified : ℕ) (data : Text) (m : Minimized) : Prop where
  deletion : Gives (deleteRounds u abi (steady answer) index signature original maxRounds original.frames 0)
    (kept, removed)
  simplification : Gives (simplifyValues u abi (steady answer) index signature original kept 0
    (fieldPlaces original kept)) (frames, simplified)
  encoded : encode u abi original frames = .ok data
  ends : Gives (minimize u abi (steady answer) index signature testcase maxRounds) m
  accepted : shows answer index signature data = true →
    Reduced u abi answer index signature original kept frames removed simplified m
  refused : shows answer index signature data = false →
    m = ⟨testcase, original.frames.length, none, 0, 0⟩ ∧ frames = original.frames

variable {original : TestCase} {testcase data : Text} {maxRounds removed simplified : ℕ} {kept frames : List Frame}

theorem exists_encode (hparse : parse u abi testcase = .ok original) (hsub : frames.Sublist original.frames) :
    ∃ data, encode u abi original frames = .ok data :=
  ⟨_, (encode_eq_ok (legible_of_parse hparse).shaped fun f hf => fits_of_parse hparse (hsub.subset hf)).2
    ⟨validShared_of_parse hparse, fun f hf => validFrame_of_parse hparse (hsub.subset hf), rfl⟩⟩

/-- The text of simpler frames is read as these. -/
theorem parse_simpler (hparse : parse u abi testcase = .ok original) (hsub : kept.Sublist original.frames)
    (hne : kept ≠ []) (hsimpler : List.Forall₂ (Simpler abi) kept frames) (hdata : encode u abi original frames = .ok data) :
    parse u abi data = .ok (reframed original frames) := by
  have hmem : ∀ f ∈ frames, ∃ g ∈ kept, Simpler abi g f := fun f hf => by
    obtain ⟨i, hi, rfl⟩ := List.mem_iff_getElem.1 hf
    have hi' : i < kept.length := hsimpler.length_eq ▸ hi
    exact ⟨kept[i], List.getElem_mem hi', List.Forall₂.get hsimpler hi' hi⟩
  refine parse_encode hparse (fun f hf => ?_) ?_ ?_ (fun f hf => ?_) hdata
  · obtain ⟨g, hg, hfg⟩ := hmem f hf
    exact hfg.fits (fits_of_parse hparse (hsub.subset hg))
  · intro hnil
    rw [hnil, List.forall₂_nil_right_iff] at hsimpler
    exact hne hsimpler
  · rw [← hsimpler.length_eq]
    exact hsub.length_le
  · obtain ⟨g, hg, hfg⟩ := hmem f hf
    exact ⟨g, hsub.subset hg, hfg.dt.symm⟩

/-- The final probe decides between the text of the frames that are left and the testcase. -/
theorem gives_minimize (hparse : parse u abi testcase = .ok original)
    (hdeletion : Gives (deleteRounds u abi (steady answer) index signature original maxRounds original.frames 0) (kept, removed))
    (hsimplification : Gives (simplifyValues u abi (steady answer) index signature original kept 0
      (fieldPlaces original kept)) (frames, simplified))
    (hdata : encode u abi original frames = .ok data) :
    Gives (minimize u abi (steady answer) index signature testcase maxRounds)
      ((classify (answer data) index).elim ⟨testcase, original.frames.length, none, 0, 0⟩ fun info =>
        if info.minimizeSignature = signature then ⟨data, frames.length, info.cycle.map (· + 1), removed, simplified⟩
        else ⟨testcase, original.frames.length, none, 0, 0⟩) := by
  unfold minimize
  rw [hparse]
  refine hdeletion.bind (hsimplification.bind ?_)
  dsimp only
  rw [hdata]
  refine (gives_boundedProbe data).bind ?_
  cases classify (answer data) index with
  | none => exact Gives.pure _
  | some info =>
    dsimp only [Option.elim_some]
    split
    · exact Gives.pure _
    · exact Gives.pure _

/-- **Shortening keeps the candidate.** It ends, and the result is the text of the frames that deletion and
simplification leave if this shows the candidate, or else the testcase as it was.  Either each round of
deletion leaves out a frame or the last one changes nothing, and then no single frame can be left out any
more. -/
theorem minimize_reduces (u : UnicodeData) (abi : TargetAbi) (answer : Text → Observation)
    (index : RuntimeIndex) (signature : Text × Option ℕ × Option Source) (testcase : Text) (maxRounds : ℕ)
    {original : TestCase} (hparse : parse u abi testcase = .ok original) :
    (∀ frames : List Frame, ∀ removed, ∃ swept removed',
      Loop (sweepFrames u abi answer index signature original) (frames, 0) swept ∧
      Gives (deleteFrames u abi (steady answer) index signature original frames.length frames 0 removed)
        (swept.1, removed')) ∧
    ∃ kept frames removed simplified data m,
      Minimizes u abi answer index signature testcase maxRounds original kept frames removed simplified data m ∧
      (Gives (deleteFrames u abi (steady answer) index signature original kept.length kept 0 removed)
        (kept, removed) ∨ maxRounds ≤ removed) ∧
      (Gives (deleteFrames u abi (steady answer) index signature original kept.length kept 0 removed)
        (kept, removed) → 1 < kept.length → ∀ place < kept.length, ∃ data,
          encode u abi original (kept.eraseIdx place) = .ok data ∧
          (classify (answer data) index).map Info.minimizeSignature ≠ some signature) := by
  refine ⟨fun frames removed => ?_, ?_⟩
  · obtain ⟨removed', hgives, -⟩ := gives_deleteFrames u abi answer index signature original frames.length frames 0 removed
    exact ⟨_, removed', sweep_ends _ blocks_pos (s := (frames, 0)) (Nat.le_refl _), hgives⟩
  obtain ⟨kept, removed, hrounds, hleft, hcount, hend⟩ := gives_deleteRounds u abi answer index signature original maxRounds
    original.frames 0
  rw [Nat.zero_add] at hcount hend
  obtain ⟨frames, simplified, hsimplify, hsimpler, hshow⟩ := gives_simplifyValues u abi answer index signature original kept 0
    (fieldPlaces original kept)
  obtain ⟨data, hdata⟩ : ∃ data, encode u abi original frames = .ok data := by
    rcases hshow with rfl | hshow
    · exact exists_encode hparse hleft.sublist
    · unfold framesShow at hshow
      split at hshow
      · cases hshow
      · rename_i data hdata
        exact ⟨data, hdata⟩
  have hread := parse_simpler hparse hleft.sublist (hleft.nonempty (frames_ne_nil_of_parse hparse)) hsimpler hdata
  -- frames that deletion or simplification changed were probed, and the answer is the same again
  have hrefused : shows answer index signature data = false → frames = original.frames := by
    intro hno
    have hnot : framesShow u abi answer index signature original frames = false := by
      rw [framesShow, hdata]
      exact hno
    have hsame : frames = kept := hshow.resolve_right (ne_true_of_eq_false hnot)
    rw [hsame] at hnot ⊢
    exact hleft.passes.resolve_right (ne_true_of_eq_false hnot)
  have hminimal : Gives (deleteFrames u abi (steady answer) index signature original kept.length kept 0
      removed) (kept, removed) → 1 < kept.length → ∀ place < kept.length, ∃ data,
        encode u abi original (kept.eraseIdx place) = .ok data ∧
        (classify (answer data) index).map Info.minimizeSignature ≠ some signature := by
    intro hround hlong place hplace
    obtain ⟨data, hdata⟩ := exists_encode hparse ((List.eraseIdx_sublist kept place).trans hleft.sublist)
    refine ⟨data, hdata, fun hshows => ?_⟩
    have hnot := framesShow_eraseIdx hround hlong hplace
    rw [framesShow, hdata] at hnot
    exact absurd (beq_iff_eq.2 hshows) (Bool.not_eq_true _ ▸ hnot)
  refine ⟨kept, frames, removed, simplified, data, _, ⟨hrounds, hsimplify, hdata,
    gives_minimize hparse hrounds hsimplify hdata, fun hyes => ?_, fun hno => ⟨?_, hrefused hno⟩⟩, hend, hminimal⟩
  · have hshows := beq_iff_eq.1 hyes
    obtain ⟨info, hclass, hsame⟩ := Option.map_eq_some_iff.1 hshows
    rw [hclass, Option.elim_some, if_pos hsame]
    exact ⟨hshows, hdata, hread, ⟨rfl, rfl, rfl⟩, hleft.sublist, hcount, hsimpler⟩
  · have hshows := beq_eq_false_iff_ne.1 hno
    cases hclass : classify (answer data) index with
    | none => rfl
    | some info =>
      rw [hclass, Option.map_some] at hshows
      rw [Option.elim_some, if_neg fun hsame => hshows (congrArg some hsame)]

def threeFrames : Text := "0.X,INT,0\n1.X,INT,5\n2.X,INT,5\n".toList

def hazardIndex : RuntimeIndex := (∅ : RuntimeIndex).insert 3 {
  kind := some "hazard_violation".toList
  hazard := some "division".toList
  modeling := some "exact".toList }

def hazardSignature : Text × Option ℕ × Option Source := ("division_by_zero".toList, some 3, none)

/-- The hazard is hit in the second frame, if the input is 5 or 1 there. -/
def hitInSecond (testcase : Text) : Observation where
  timedOut := false
  stderr := []
  hits :=
    if "1.X,INT,5".toList <:+: testcase ∨ "1.X,INT,1".toList <:+: testcase then
      (∅ : Std.ExtTreeMap ℕ (List ℤ) compare).insert 3 [1]
    else ∅

/-- The first frame is left out, both values that stay are made simpler, and neither of the two frames can
be left out after that. -/
theorem minimize_reduces_threeFrames : ∃ original kept frames m,
    parse asciiData oneInput threeFrames = .ok original ∧ original.frames.length = 3 ∧ kept.length = 2 ∧
    Gives (minimize asciiData oneInput (steady hitInSecond) hazardIndex hazardSignature threeFrames 6) m ∧
    m.testcase = "0.X,INT,0\n1.X,INT,1\n".toList ∧
    Reduced asciiData oneInput hitInSecond hazardIndex hazardSignature original kept frames 1 2 m ∧
    ∀ place < kept.length, ∃ data, encode asciiData oneInput original (kept.eraseIdx place) = .ok data ∧
      (classify (hitInSecond data) hazardIndex).map Info.minimizeSignature ≠ some hazardSignature := by
  have hok : ((parse asciiData oneInput threeFrames).toOption.map fun T => T.frames.length) = some 3 := by
    decide +kernel
  have hrun : ((minimize asciiData oneInput (steady hitInSecond) hazardIndex hazardSignature threeFrames
      6).run.run {}).1.toOption.map (fun m => (m.testcase, m.frames, m.removed, m.simplified)) =
        some ("0.X,INT,0\n1.X,INT,1\n".toList, 2, 1, 2) := by decide +kernel
  cases hparse : parse asciiData oneInput threeFrames with
  | error e =>
    rw [hparse] at hok
    cases hok
  | ok original =>
    rw [hparse] at hok
    have hlength : original.frames.length = 3 := Option.some.inj hok
    obtain ⟨-, kept, frames, removed, simplified, data, m, h, hend, hminimal⟩ := minimize_reduces asciiData
      oneInput hitInSecond hazardIndex hazardSignature threeFrames 6 hparse
    obtain ⟨log, hlog⟩ := h.ends {}
    rw [hlog] at hrun
    have hfound := Option.some.inj hrun
    rw [Prod.mk.injEq, Prod.mk.injEq, Prod.mk.injEq] at hfound
    obtain ⟨htext, -, hremoved, hsimplified⟩ := hfound
    have hshows : shows hitInSecond hazardIndex hazardSignature data = true := by
      by_contra hno
      obtain ⟨rfl, -⟩ := h.refused (Bool.not_eq_true _ ▸ hno)
      cases hremoved
    have hreduced := h.accepted hshows
    obtain ⟨-, hcount, hcount'⟩ := hreduced.counts
    obtain rfl : 1 = removed := hremoved.symm.trans hcount
    obtain rfl : 2 = simplified := hsimplified.symm.trans hcount'
    have hkept : kept.length = 2 := by
      have hdropped := hreduced.dropped
      omega
    refine ⟨original, kept, frames, m, rfl, hlength, hkept, h.ends, htext, hreduced, ?_⟩
    exact hminimal (hend.resolve_right (by decide)) (by omega)

end Result

end SemantiST.Campaign
