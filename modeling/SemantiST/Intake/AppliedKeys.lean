import SemantiST.Intake.Tracking
import SemantiST.Intake.Members
import SemantiST.Lib.Fold
import SemantiST.Lib.Along

/-!
# Applied keys

A key of an earlier round holds an offset of the text of that round.  A later proposal with that key is
skipped: whether it is about the construct that was rewritten then depends on where the edits in
between have put what stands at the offset.
-/

namespace SemantiST.Intake

open Lib EditableSource

/-! ## Following characters through edits -/

/-- For each character of a text the offsets that it comes from in an earlier text; none for what was
put at the end of the text. -/
abbrev Followed := List (Option (List ℕ))

def unedited (length : ℕ) : Followed := (List.range length).map fun i => some [i]

/-- Where a replacement comes from that covers some characters. -/
def merged (covered : Followed) : Option (List ℕ) :=
  covered.foldr (fun first rest => first.bind fun origins => rest.map fun others => origins ++ others) (some [])

/-- A replacement comes from all that it covers, an insertion from the character that it is put before. -/
def Edit.follow : Edit → Followed → Followed
  | .replace start stop replacement _, followed =>
    let covered := slice start stop followed
    let origin := if covered = [] then followed[start]?.join else merged covered
    replaceSpan start stop (replacement.map fun _ => origin) followed
  | .move start stop destination _, followed => moveSpan start stop destination followed

/-! ## Skipped proposals -/

/-- A proposal that is skipped, with the earlier one that its key is taken from. -/
structure Suppression (run : List (Normalizing × Round)) where
  first : ℕ
  second : ℕ
  lt : first < second
  before : Normalizing × Round
  after : Normalizing × Round
  at_first : run[first]? = some before
  at_second : run[second]? = some after
  done : Proposal
  again : Proposal
  accepted : done ∈ before.2.accepted
  skipped : again ∈ after.2.skipped
  key_eq : done.key = again.key

/-- The last character of the construct that a key stands for, which starts at the offset. -/
abbrev LastOf := SourceIndex → OffsetKey → ℕ

/-- The first and the last character of a construct, in the coordinates of the current text. -/
def constructOf (project : Project) (last : LastOf) (source : EditableSource) (key : OffsetKey) : ℕ × ℕ :=
  (key.offset, last (project.index source.text) key)

/-- A span mapped to the original. -/
def originalSpan (source : EditableSource) (span : ℕ × ℕ) : ℕ × ℕ := (source.toOriginal span.1, source.toOriginal span.2)

namespace Suppression

variable {run : List (Normalizing × Round)} (s : Suppression run)

/-- The text in which the earlier proposal was made. -/
def sourceThen : EditableSource := s.before.1.sources s.done.key.file

/-- The text in which the proposal is skipped. -/
def sourceNow : EditableSource := s.after.1.sources s.done.key.file

/-- The edits of the file from the round of the earlier proposal on. -/
def edits : List Edit :=
  ((run.drop s.first).take (s.second - s.first)).flatMap fun step => editsOf step.2.accepted s.done.key.file

def followed : Followed := s.edits.foldl (fun followed edit => edit.follow followed) (unedited s.sourceThen.text.length)

/-- **The property**: both constructs are mapped to one span of the original. -/
def SameSpan (project : Project) (last : LastOf) : Prop :=
  originalSpan s.sourceNow (constructOf project last s.sourceNow s.again.key) =
    originalSpan s.sourceThen (constructOf project last s.sourceThen s.done.key)

/-- What stands at an offset now comes from characters of the earlier text of which the first in the
original is where a character of that text stood. -/
def ComesFrom (now earlier : ℕ) : Prop :=
  ∃ origins, s.followed[now]? = some (some origins) ∧
    (origins.map s.sourceThen.toOriginal).min? = some (s.sourceThen.toOriginal earlier)

/-- **The condition**: followed through the edits made since, the construct has the ends that the earlier
one had. -/
def InPlace (project : Project) (last : LastOf) : Prop :=
  s.ComesFrom s.again.key.offset s.done.key.offset ∧
    s.ComesFrom (constructOf project last s.sourceNow s.again.key).2 (constructOf project last s.sourceThen s.done.key).2

/-- An end of the construct stands in text that was put at the end of the file since. -/
def Appended (project : Project) (last : LastOf) : Prop :=
  s.followed[s.again.key.offset]? = some none ∨
    s.followed[(constructOf project last s.sourceNow s.again.key).2]? = some none

end Suppression

/-- The constructs of a round and the spans that it moves lie in the texts. -/
structure InText (project : Project) (last : LastOf) (step : Normalizing × Round) : Prop where
  construct : ∀ proposal ∈ step.2.skipped,
    proposal.key.offset < (step.1.sources proposal.key.file).text.length ∧
      last (project.index (step.1.sources proposal.key.file).text) proposal.key <
        (step.1.sources proposal.key.file).text.length
  moves : ∀ proposal ∈ step.2.accepted, ∀ edit ∈ proposal.edits, edit.moveTo.isSome →
    edit.start ≤ edit.stop ∧ edit.stop ≤ (step.1.sources edit.file).text.length

instance (project : Project) (last : LastOf) (step : Normalizing × Round) : Decidable (InText project last step) :=
  decidable_of_iff (_ ∧ _) ⟨fun h => ⟨h.1, h.2⟩, fun h => ⟨h.construct, h.moves⟩⟩

/-! ## Original offsets of characters -/

/-- The first original offset that a character stands for. -/
def Origin.first : Origin → ℕ
  | .at offset => offset
  | .within start _ => start

variable {original : Text} {source source' : EditableSource} {tracked : Tracked} {followed : Followed}
  {place : ℕ → ℕ} {start stop destination : ℕ}

theorem first_mem_view {piece : Piece} {seen : Char × Origin} (h : seen ∈ piece.view) :
    piece.originalStart ≤ seen.2.first := by
  unfold Piece.view at h
  split at h
  · obtain ⟨entry, hentry, rfl⟩ := List.mem_map.1 h
    exact List.le_snd_of_mem_zipIdx hentry
  · obtain ⟨c, -, rfl⟩ := List.mem_map.1 h
    exact le_rfl

theorem first_view_zero {piece : Piece} (h : piece.text ≠ []) :
    ∃ seen ∈ piece.view, seen.2.first = piece.originalStart := by
  obtain ⟨c, rest, htext⟩ := List.exists_cons_of_ne_nil h
  unfold Piece.view
  rw [htext]
  split
  · exact ⟨(c, .at piece.originalStart), by simp, rfl⟩
  · exact ⟨(c, .within piece.originalStart piece.originalEnd), by simp, rfl⟩

/-- An offset is mapped to what the character there stands for. -/
theorem toOriginalFrom_view (pieces : List Piece) (i position : ℕ) {seen : Char × Origin}
    (h : (viewAll pieces)[i]? = some seen) : toOriginalFrom original (position + i) position pieces = seen.2.first := by
  induction pieces generalizing i position with
  | nil => cases h
  | cons piece pieces ih =>
    rw [viewAll_cons] at h
    by_cases hi : i < piece.text.length
    · rw [List.getElem?_append_left (by rw [length_view]; exact hi)] at h
      rw [toOriginalFrom, if_pos (.inl (by omega)), show min (position + i - position) piece.text.length = i by omega]
      unfold Piece.view at h
      split at h
      · rename_i hprecise
        rw [List.getElem?_map, List.getElem?_zipIdx, List.getElem?_eq_getElem hi] at h
        cases h
        exact if_pos hprecise
      · rename_i hprecise
        rw [List.getElem?_map, List.getElem?_eq_getElem hi] at h
        cases h
        exact if_neg hprecise
    · rw [List.getElem?_append_right (by rw [length_view]; omega), length_view] at h
      have hne : pieces ≠ [] := by
        rintro rfl
        cases h
      rw [toOriginalFrom, if_neg (by simp [hne]; omega)]
      have hrest := ih (i - piece.text.length) (position + piece.text.length) h
      rwa [show position + piece.text.length + (i - piece.text.length) = position + i by omega] at hrest

theorem toOriginal_view {i : ℕ} {seen : Char × Origin} (h : (viewAll source.pieces)[i]? = some seen) :
    source.toOriginal i = seen.2.first := by
  have hfrom := @toOriginalFrom_view source.original source.pieces i 0 seen h
  rwa [Nat.zero_add] at hfrom

theorem foldl_min_mem (pieces : List Piece) (low : ℕ) :
    pieces.foldl (fun low piece => min low piece.originalStart) low = low ∨
      ∃ piece ∈ pieces, pieces.foldl (fun low piece => min low piece.originalStart) low = piece.originalStart := by
  induction pieces generalizing low with
  | nil => exact .inl rfl
  | cons piece pieces ih =>
    rw [List.foldl_cons]
    rcases ih (min low piece.originalStart) with h | ⟨piece', hmem, h⟩
    · rw [h]
      rcases Nat.le_total low piece.originalStart with hle | hle
      · exact .inl (min_eq_left hle)
      · exact .inr ⟨piece, List.mem_cons_self, min_eq_right hle⟩
    · exact .inr ⟨piece', List.mem_cons_of_mem _ hmem, h⟩

/-- The span of covered pieces starts with the first that their characters stand for. -/
theorem coveredSpan_first {covered : List Piece} (origin : ℕ) (hne : covered ≠ [])
    (htext : ∀ piece ∈ covered, piece.text ≠ []) :
    (∃ seen ∈ viewAll covered, seen.2.first = (coveredSpan origin covered).1) ∧
      ∀ seen ∈ viewAll covered, (coveredSpan origin covered).1 ≤ seen.2.first := by
  refine ⟨?_, ?_⟩
  · obtain ⟨piece, hpiece, hstart⟩ : ∃ piece ∈ covered, (coveredSpan origin covered).1 = piece.originalStart := by
      cases covered with
      | nil => exact absurd rfl hne
      | cons first rest =>
        rcases foldl_min_mem rest first.originalStart with h | ⟨piece, hmem, h⟩
        · exact ⟨first, List.mem_cons_self, h⟩
        · exact ⟨piece, List.mem_cons_of_mem _ hmem, h⟩
    obtain ⟨seen, hseen, hfirst⟩ := first_view_zero (htext piece hpiece)
    exact ⟨seen, List.mem_flatMap.2 ⟨piece, hpiece, hseen⟩, hfirst.trans hstart.symm⟩
  · intro seen hseen
    obtain ⟨piece, hpiece, hseen⟩ := List.mem_flatMap.1 hseen
    exact (coveredSpan_holds origin hpiece).1.trans (first_mem_view hseen)

/-! ## Edits keep what is followed -/

/-- The first original offset of what a character comes from is the one that it stands for. -/
def Agrees (place : ℕ → ℕ) (seen : Char × Origin) (origins : Option (List ℕ)) : Prop :=
  ∀ offsets, origins = some offsets → (offsets.map place).min? = some seen.2.first

theorem agrees_unedited (source : EditableSource) :
    List.Forall₂ (Agrees source.toOriginal) (viewAll source.pieces) (unedited (viewAll source.pieces).length) := by
  rw [List.forall₂_iff_get]
  refine ⟨by simp [unedited], fun i hi _ => ?_⟩
  intro offsets h
  simp only [unedited, List.get_eq_getElem, List.getElem_map, List.getElem_range, Option.some.injEq] at h
  subst h
  have hplace := toOriginal_view (List.getElem?_eq_getElem hi)
  simpa using hplace

/-- What is merged holds what is covered, and no more. -/
theorem mem_merged {covered : Followed} {offsets : List ℕ} (h : merged covered = some offsets) :
    (∀ origins ∈ covered, ∃ part, origins = some part ∧ part ⊆ offsets) ∧
      ∀ offset ∈ offsets, ∃ part, some part ∈ covered ∧ offset ∈ part := by
  induction covered generalizing offsets with
  | nil =>
    cases h
    exact ⟨(fun _ h => by cases h), fun _ h => by cases h⟩
  | cons origins covered ih =>
    obtain ⟨part, rfl, hrest⟩ := Option.bind_eq_some_iff.1 h
    obtain ⟨others, hothers, rfl⟩ := Option.map_eq_some_iff.1 hrest
    obtain ⟨hall, hfrom⟩ := ih hothers
    refine ⟨?_, ?_⟩
    · intro origins' hmem
      rcases List.mem_cons.1 hmem with rfl | hmem
      · exact ⟨part, rfl, List.subset_append_left _ _⟩
      · obtain ⟨part', rfl, hsub⟩ := hall origins' hmem
        exact ⟨part', rfl, List.subset_append_of_subset_right _ hsub⟩
    · intro offset hmem
      rcases List.mem_append.1 hmem with hmem | hmem
      · exact ⟨part, List.mem_cons_self, hmem⟩
      · obtain ⟨part', hpart', hmem⟩ := hfrom offset hmem
        exact ⟨part', List.mem_cons_of_mem _ hpart', hmem⟩

/-- The first offset of what is merged is the first that the covered characters stand for. -/
theorem min_merged {seen : List (Char × Origin)} {covered : Followed} {offsets : List ℕ} {low : ℕ}
    (h : List.Forall₂ (Agrees place) seen covered) (hmerged : merged covered = some offsets)
    (hlow : (∃ entry ∈ seen, entry.2.first = low) ∧ ∀ entry ∈ seen, low ≤ entry.2.first) :
    (offsets.map place).min? = some low := by
  obtain ⟨hall, hfrom⟩ := mem_merged hmerged
  obtain ⟨⟨entry, hentry, rfl⟩, hle⟩ := hlow
  rw [List.min?_eq_some_iff]
  refine ⟨?_, ?_⟩
  · obtain ⟨i, hi, rfl⟩ := List.getElem_of_mem hentry
    have hi' : i < covered.length := h.length_eq ▸ hi
    obtain ⟨part, hpart, hsub⟩ := hall covered[i] (List.getElem_mem hi')
    have hmin := h.get hi hi' part hpart
    exact List.map_subset _ hsub (List.min?_mem hmin)
  · intro value hvalue
    obtain ⟨offset, hoffset, rfl⟩ := List.mem_map.1 hvalue
    obtain ⟨part, hpart, hmem⟩ := hfrom offset hoffset
    obtain ⟨i, hi, hat⟩ := List.getElem_of_mem hpart
    have hi' : i < seen.length := h.length_eq ▸ hi
    have hmin := h.get hi' hi part hat
    have hmin := (List.min?_eq_some_iff.1 hmin).2 (place offset) (List.mem_map_of_mem hmem)
    exact (hle _ (List.getElem_mem hi')).trans hmin

/-- A span without text covers no piece. -/
theorem covered_eq_nil (hle : start ≤ stop) (hsound : ∀ piece ∈ source.pieces, piece.Sound original) :
    (cutSpan start stop 0 source.pieces).2.1 = [] ↔ slice start stop (viewAll source.pieces) = [] := by
  obtain ⟨-, hcovered, -⟩ := viewAll_cutSpan hle 0 source.pieces
  obtain ⟨-, hsound', -⟩ := sound_cutSpan hle 0 hsound
  rw [Nat.sub_zero, Nat.sub_zero] at hcovered
  rw [← hcovered]
  constructor
  · intro h
    rw [h]
    rfl
  · intro h
    by_contra hne
    obtain ⟨piece, rest, hpieces⟩ := List.exists_cons_of_ne_nil hne
    rw [hpieces, viewAll_cons, List.append_eq_nil_iff, view_eq_nil] at h
    exact (hsound' piece (by rw [hpieces]; exact List.mem_cons_self)).2 h.1

/-- **A replacement keeps what is followed.** -/
theorem agrees_replace (hle : start ≤ stop) (hsound : ∀ piece ∈ source.pieces, piece.Sound original)
    (h : List.Forall₂ (Agrees place) (viewAll source.pieces) followed) (replacement rule : Text) :
    List.Forall₂ (Agrees place) (viewAll (replacedPieces source start stop replacement rule))
      ((Edit.replace start stop replacement rule).follow followed) := by
  obtain ⟨-, hview, -⟩ := viewAll_cutSpan hle 0 source.pieces
  obtain ⟨-, hsound', -⟩ := sound_cutSpan hle 0 hsound
  rw [Nat.sub_zero, Nat.sub_zero] at hview
  have hcovered := forall₂_slice h start stop
  rw [viewAll_replacedPieces hle]
  refine List.rel_append (List.rel_append (List.forall₂_take _ h) ?_) (List.forall₂_drop _ h)
  rw [List.forall₂_map_left_iff, List.forall₂_map_right_iff, List.forall₂_same]
  intro c _ offsets hoffsets
  dsimp only [Origin.first]
  by_cases hnone : slice start stop followed = []
  · -- an insertion stands for the character that it is put before
    rw [if_pos hnone] at hoffsets
    have hlength := hcovered.length_eq
    rw [hnone, List.length_nil, List.length_eq_zero_iff, ← covered_eq_nil hle hsound] at hlength
    rw [hlength]
    obtain ⟨hat, hvalue⟩ := List.getElem?_eq_some_iff.1 (Option.join_eq_some_iff.1 hoffsets)
    have hat' : start < (viewAll source.pieces).length := h.length_eq.symm ▸ hat
    have hmin := h.get hat' hat offsets hvalue
    rw [hmin]
    exact congrArg some (toOriginal_view (List.getElem?_eq_getElem hat')).symm
  · rw [if_neg hnone] at hoffsets
    refine min_merged hcovered hoffsets ?_
    have hne : (cutSpan start stop 0 source.pieces).2.1 ≠ [] := by
      rw [Ne, covered_eq_nil hle hsound, ← List.length_eq_zero_iff, hcovered.length_eq, List.length_eq_zero_iff]
      exact hnone
    rw [← hview]
    exact coveredSpan_first _ hne fun piece hpiece => (hsound' piece hpiece).2

/-! ## Rounds of edits -/

/-- An edit of a round: a replacement, or a move of a span that lies in a text of a length. -/
def Edit.Moves (length : ℕ) : Edit → Prop
  | .replace .. => False
  | .move start stop _ _ => start ≤ stop ∧ stop ≤ length

def Edit.Replaces : Edit → Prop
  | .replace .. => True
  | .move .. => False

/-- A text of sound pieces, in which what is followed is kept. -/
structure Keeps (original : Text) (place : ℕ → ℕ) (source : EditableSource) (followed : Followed) : Prop where
  original_eq : source.original = original
  sound : ∀ piece ∈ source.pieces, piece.Sound original
  agrees : List.Forall₂ (Agrees place) (viewAll source.pieces) followed

theorem keeps_replace (h : Keeps original place source followed) {replacement rule : Text}
    (happly : source.replace start stop replacement rule = .ok source') :
    Keeps original place source' ((Edit.replace start stop replacement rule).follow followed) := by
  have hle : start ≤ stop := by
    by_contra hlt
    rw [EditableSource.replace, if_pos (by omega)] at happly
    cases happly
  rw [replace_eq source hle] at happly
  cases happly
  refine ⟨h.original_eq, ?_, agrees_replace hle h.sound h.agrees replacement rule⟩
  exact sound_replacedPieces hle h.original_eq h.sound replacement rule

theorem keeps_move (h : Keeps original place source followed) {rule : Text} (hle : start ≤ stop)
    (hlength : stop ≤ source.text.length) (happly : source.move start stop destination rule = .ok source') :
    Keeps original place source' ((Edit.move start stop destination rule).follow followed) ∧
      source'.text.length = source.text.length := by
  have hout : ¬(start < destination ∧ destination < stop) := by
    intro hin
    rw [EditableSource.move, if_pos hin] at happly
    cases happly
  rw [move_eq source hout] at happly
  cases happly
  have hview := viewAll_movedPieces h.sound hle (length_viewAll source ▸ hlength) hout rule
  refine ⟨⟨h.original_eq, ?_, ?_⟩, ?_⟩
  · exact sound_movedPieces h.sound rule
  · rw [hview]
    exact forall₂_moveSpan h.agrees start stop destination
  · rw [← length_viewAll, hview, ← length_viewAll]
    exact length_moveSpan hle (length_viewAll source ▸ hlength) destination

theorem keeps_replacements {edits : List Edit} (h : Keeps original place source followed)
    (hedits : ∀ edit ∈ edits, edit.Replaces) (happly : applyAll source edits = .ok source') :
    Keeps original place source' (edits.foldl (fun followed edit => edit.follow followed) followed) := by
  induction edits generalizing source followed with
  | nil =>
    cases happly
    exact h
  | cons edit edits ih =>
    obtain ⟨source₁, hfirst, hrest⟩ := bind_eq_ok.1 happly
    have hedits' : ∀ edit ∈ edits, edit.Replaces := fun edit' h' => hedits edit' (List.mem_cons_of_mem _ h')
    cases edit with
    | replace start stop replacement rule => exact ih (keeps_replace h hfirst) hedits' hrest
    | move start stop destination rule => exact (hedits _ List.mem_cons_self).elim

theorem keeps_moves {edits : List Edit} {length : ℕ} (h : Keeps original place source followed)
    (hlength : source.text.length = length) (hedits : ∀ edit ∈ edits, edit.Moves length)
    (happly : applyAll source edits = .ok source') :
    Keeps original place source' (edits.foldl (fun followed edit => edit.follow followed) followed) := by
  induction edits generalizing source followed with
  | nil =>
    cases happly
    exact h
  | cons edit edits ih =>
    obtain ⟨source₁, hfirst, hrest⟩ := bind_eq_ok.1 happly
    have hedits' : ∀ edit ∈ edits, edit.Moves length := fun edit' h' => hedits edit' (List.mem_cons_of_mem _ h')
    cases edit with
    | replace start stop replacement rule => exact (hedits _ List.mem_cons_self).elim
    | move start stop destination rule =>
      obtain ⟨hle, hstop⟩ := hedits _ List.mem_cons_self
      obtain ⟨hkeeps, hsame⟩ := keeps_move h hle (hlength ▸ hstop) hfirst
      exact ih hkeeps (hsame.trans hlength) hedits' hrest

/-- The edits of a round in a file are replacements, or moves of spans in the text. -/
theorem editsOf_cases {project : Project} {last : LastOf} {step : Normalizing × Round} (h : InText project last step)
    (file : Text) : (∀ edit ∈ editsOf step.2.accepted file, edit.Replaces) ∨
      ∀ edit ∈ editsOf step.2.accepted file, edit.Moves (step.1.sources file).text.length := by
  unfold editsOf
  dsimp only
  split
  · left
    intro edit hedit
    obtain ⟨entry, hentry, rfl⟩ := List.mem_map.1 hedit
    obtain ⟨owned, -, rfl⟩ := List.mem_map.1 ((List.perm_insertionSort _ _).mem_iff.1 hentry)
    trivial
  · right
    intro edit hedit
    obtain ⟨entry, hentry, rfl⟩ := List.mem_map.1 hedit
    obtain ⟨owned, howned, hmove⟩ := List.mem_filterMap.1 ((List.perm_insertionSort _ _).mem_iff.1 hentry)
    obtain ⟨proposal, hproposal, howned⟩ := List.mem_flatMap.1 howned
    obtain ⟨moved, hmoved, rfl⟩ := List.mem_map.1 howned
    obtain ⟨hmoved, hfile⟩ := List.mem_filter.1 hmoved
    obtain ⟨destination, hdestination, rfl⟩ := Option.map_eq_some_iff.1 hmove
    dsimp only at hdestination
    have hbounds := h.moves proposal hproposal moved hmoved (by rw [hdestination]; rfl)
    rwa [of_decide_eq_true hfile] at hbounds

/-! ## Rounds -/

theorem editsOf_eq_nil {accepted : List Proposal} {file : Text}
    (h : ∀ proposal ∈ accepted, ∀ edit ∈ proposal.edits, edit.file ≠ file) : editsOf accepted file = [] := by
  have howned : (accepted.flatMap fun proposal =>
      (proposal.edits.filter fun edit => edit.file = file).map fun edit => (edit, proposal.rule)) = [] := by
    rw [List.flatMap_eq_nil_iff]
    intro proposal hproposal
    rw [List.map_eq_nil_iff, List.filter_eq_nil_iff]
    intro edit hedit
    rw [decide_eq_true_eq]
    exact h proposal hproposal edit hedit
  unfold editsOf
  rw [howned]
  rfl

theorem maskUnits_sources {project : Project} {index : Text → SourceIndex} {errors : Errors} {answer : Answer}
    {s s' : Normalizing} (h : maskUnits project index errors answer s = some s') :
    s'.sources = s.sources ∧ s'.applied = s.applied := by
  unfold maskUnits at h
  split at h
  · cases h
  · split at h
    · obtain ⟨culprit, -, h⟩ := Option.bind_eq_some_iff.1 h
      obtain ⟨unit, -, h⟩ := Option.bind_eq_some_iff.1 h
      cases h
      exact ⟨rfl, rfl⟩
    · dsimp only at h
      split at h
      · cases h
      · cases h
        exact ⟨rfl, rfl⟩

theorem applyRound_sources {project : Project} {s s' : Normalizing} {accepted : List Proposal} {known : List Text}
    (h : applyRound project s accepted known = some s') (file : Text) :
    applyAll (s.sources file) (editsOf accepted file) = .ok (s'.sources file) := by
  unfold applyRound at h
  split at h
  · rename_i hguard
    cases h
    obtain ⟨hfiles, happlied⟩ := Bool.and_eq_true_iff.1 hguard
    have hok : (applyAll (s.sources file) (editsOf accepted file)).toOption.isSome = true := by
      by_cases hfile : file ∈ project.files
      · exact List.all_eq_true.1 happlied file hfile
      · rw [editsOf_eq_nil]
        · rfl
        · rintro proposal hproposal edit hedit rfl
          have hmem := List.all_eq_true.1 (List.all_eq_true.1 hfiles proposal hproposal) edit hedit
          exact hfile (List.contains_iff_mem.1 hmem)
    dsimp only
    cases hresult : applyAll (s.sources file) (editsOf accepted file) with
    | error e =>
      rw [hresult] at hok
      cases hok
    | ok source => rfl
  · cases h

theorem applyRound_applied {project : Project} {s s' : Normalizing} {accepted : List Proposal} {known : List Text}
    (h : applyRound project s accepted known = some s') : s'.applied = s.applied ++ accepted.map Proposal.key := by
  unfold applyRound at h
  split at h
  · cases h
    rfl
  · cases h

/-- The outcomes of a round: nothing is left, there is nothing to apply, the proposals are out of place,
or those accepted are applied. -/
theorem round_cases (project : Project) (s : Normalizing) (answer : Answer) :
    ∃ errors located, let index := fun file => project.index (s.sources file).text
      let offers := collect project.rules index s.applied s.known located
      round project s answer = {} ∨
      round project s answer =
        { skipped := offers.skipped, next := maskUnits project index errors answer { s with known := offers.known } } ∨
      round project s answer = { skipped := offers.skipped } ∨
      ∃ accepted, round project s answer =
        { skipped := offers.skipped, accepted := accepted, next := applyRound project s accepted offers.known } := by
  refine ⟨errorsOf project (fun file => project.index (s.sources file).text) answer,
    (errorsOf project (fun file => project.index (s.sources file).text) answer).located, ?_⟩
  unfold round
  dsimp only
  split
  · exact .inl rfl
  · split
    · exact .inr (.inl rfl)
    · split
      · exact .inr (.inr (.inl rfl))
      · rename_i accepted _
        exact .inr (.inr (.inr ⟨accepted, rfl⟩))

/-- **What a round does**: its edits are applied, and the keys of what it accepts are kept. -/
theorem round_next {project : Project} {s s' : Normalizing} {answer : Answer}
    (h : (round project s answer).next = some s') :
    (∀ file, applyAll (s.sources file) (editsOf (round project s answer).accepted file) = .ok (s'.sources file)) ∧
      s'.applied = s.applied ++ (round project s answer).accepted.map Proposal.key := by
  obtain ⟨errors, located, hround | hround | hround | ⟨accepted, hround⟩⟩ := round_cases project s answer
  · rw [hround] at h
    cases h
  · rw [hround] at h ⊢
    obtain ⟨hsources, happlied⟩ := maskUnits_sources h
    refine ⟨fun file => ?_, ?_⟩
    · rw [hsources]
      rfl
    · rw [happlied]
      exact (List.append_nil _).symm
  · rw [hround] at h
    cases h
  · rw [hround] at h ⊢
    exact ⟨applyRound_sources h, applyRound_applied h⟩

theorem skipped_collect {rules : List Rule} {index : Text → SourceIndex} {applied : List OffsetKey}
    {known : List Text} {located : List (Text × Located)} :
    ∀ proposal ∈ (collect rules index applied known located).skipped, proposal.key ∈ applied := by
  refine foldl_invariant (I := fun offers : Offers => ∀ proposal ∈ offers.skipped, proposal.key ∈ applied) ?_ ?_
  · intro offers item _ h
    dsimp only
    split
    · unfold Offers.add
      split
      · rename_i hkey
        intro proposal hproposal
        rcases List.mem_append.1 hproposal with hproposal | hproposal
        · exact h proposal hproposal
        · rwa [List.mem_singleton.1 hproposal]
      · split
        · exact h
        · exact h
    · exact h
  · intro _ h
    cases h

/-- What a round skips has an applied key. -/
theorem key_mem_applied {project : Project} {s : Normalizing} {answer : Answer} {proposal : Proposal}
    (h : proposal ∈ (round project s answer).skipped) : proposal.key ∈ s.applied := by
  obtain ⟨errors, located, hround | hround | hround | ⟨accepted, hround⟩⟩ := round_cases project s answer
  · rw [hround] at h
    cases h
  · rw [hround] at h
    exact skipped_collect proposal h
  · rw [hround] at h
    exact skipped_collect proposal h
  · rw [hround] at h
    exact skipped_collect proposal h

/-! ## Runs -/

section Runs

variable {project : Project} {last : LastOf} {s : Normalizing} {answers : List Answer}

/-- The edits of some rounds in a file. -/
def editsIn (run : List (Normalizing × Round)) (file : Text) : List Edit :=
  run.flatMap fun step => editsOf step.2.accepted file

/-- A later round starts from the texts that the edits of the rounds before it give. -/
theorem keeps_rounds {file : Text} {i : ℕ} {step : Normalizing × Round}
    (hin : ∀ step ∈ rounds project s answers, InText project last step)
    (h : Keeps original place (s.sources file) followed) (hstep : (rounds project s answers)[i]? = some step) :
    Keeps original place (step.1.sources file)
      ((editsIn ((rounds project s answers).take i) file).foldl (fun followed edit => edit.follow followed) followed) := by
  induction answers generalizing s followed i with
  | nil => cases hstep
  | cons answer answers ih =>
    cases i with
    | zero =>
      cases hstep
      exact h
    | succ i =>
      rw [rounds] at hstep hin ⊢
      rw [List.getElem?_cons_succ] at hstep
      cases hnext : (round project s answer).next with
      | none =>
        rw [hnext] at hstep
        cases hstep
      | some s' =>
        rw [hnext] at hstep hin
        dsimp only at hstep hin ⊢
        have hkeeps : Keeps original place (s'.sources file)
            ((editsOf (round project s answer).accepted file).foldl (fun followed edit => edit.follow followed) followed) := by
          rcases editsOf_cases (hin _ List.mem_cons_self) file with hedits | hedits
          · exact keeps_replacements h hedits ((round_next hnext).1 file)
          · exact keeps_moves h rfl hedits ((round_next hnext).1 file)
        have hrest := ih (fun step hmem => hin step (List.mem_cons_of_mem _ hmem)) hkeeps hstep
        rw [List.take_succ_cons, editsIn, List.flatMap_cons, List.foldl_append]
        exact hrest

/-- The rounds after some are the rounds of a run from the state of the first of them. -/
theorem drop_rounds {i : ℕ} {step : Normalizing × Round} (hstep : (rounds project s answers)[i]? = some step) :
    (rounds project s answers).drop i = rounds project step.1 (answers.drop i) := by
  induction answers generalizing s i with
  | nil => cases hstep
  | cons answer answers ih =>
    cases i with
    | zero =>
      cases hstep
      rfl
    | succ i =>
      rw [rounds] at hstep ⊢
      rw [List.getElem?_cons_succ] at hstep
      rw [List.drop_succ_cons, List.drop_succ_cons]
      split at hstep
      · exact ih hstep
      · cases hstep

/-- The keys that a state holds are those of the proposals accepted before it. -/
theorem applied_rounds {i : ℕ} {step : Normalizing × Round} (hstep : (rounds project s answers)[i]? = some step)
    {key : OffsetKey} (hkey : key ∈ step.1.applied) :
    key ∈ s.applied ∨ ∃ j, j < i ∧ ∃ earlier, (rounds project s answers)[j]? = some earlier ∧
      ∃ proposal ∈ earlier.2.accepted, proposal.key = key := by
  induction answers generalizing s i with
  | nil => cases hstep
  | cons answer answers ih =>
    cases i with
    | zero =>
      cases hstep
      exact .inl hkey
    | succ i =>
      rw [rounds] at hstep ⊢
      rw [List.getElem?_cons_succ] at hstep
      cases hnext : (round project s answer).next with
      | none =>
        rw [hnext] at hstep
        cases hstep
      | some s' =>
        rw [hnext] at hstep
        rcases ih hstep with hold | ⟨j, hj, earlier, hearlier, hproposal⟩
        · rw [(round_next hnext).2, List.mem_append] at hold
          rcases hold with hold | hnew
          · exact .inl hold
          · obtain ⟨proposal, hproposal, rfl⟩ := List.mem_map.1 hnew
            exact .inr ⟨0, Nat.succ_pos i, _, rfl, proposal, hproposal, rfl⟩
        · exact .inr ⟨j + 1, Nat.succ_lt_succ hj, earlier, hearlier, hproposal⟩

theorem keeps_unedited (hsound : ∀ piece ∈ source.pieces, piece.Sound original)
    (horiginal : source.original = original) :
    Keeps original source.toOriginal source (unedited source.text.length) := by
  have hagrees := agrees_unedited source
  rw [length_viewAll] at hagrees
  exact ⟨horiginal, hsound, hagrees⟩

end Runs

theorem sound_ofText (original : Text) : ∀ piece ∈ (ofText original).pieces, piece.Sound original :=
  (faithful_ofText original).sound

/-- The texts that a run starts from are made of sound pieces. -/
theorem sound_rebound (rebind : List (Text × Text)) (index : Text → SourceIndex) (text : Text) :
    (rebound rebind index text).original = text ∧ ∀ piece ∈ (rebound rebind index text).pieces, piece.Sound text := by
  refine foldl_invariant (I := fun source : EditableSource =>
    source.original = text ∧ ∀ piece ∈ source.pieces, piece.Sound text) ?_ ⟨rfl, sound_ofText text⟩
  intro source edit _ h
  by_cases hle : edit.1 ≤ edit.2.1
  · rw [replace_eq source hle]
    exact ⟨h.1, sound_replacedPieces hle h.1 h.2 _ _⟩
  · rw [EditableSource.replace, if_pos (by omega)]
    exact h

section Suppressions

variable {project : Project} {last : LastOf} {texts : Text → Text} {rebind : List (Text × Text)} {known : List Text}
  {answers : List Answer}

/-- **What is skipped was accepted before.** -/
theorem exists_suppression {i : ℕ} {step : Normalizing × Round} {again : Proposal}
    (hstep : (normalize project texts rebind known answers)[i]? = some step) (hagain : again ∈ step.2.skipped) :
    ∃ s : Suppression (normalize project texts rebind known answers), s.second = i ∧ s.again = again := by
  have hkey : again.key ∈ step.1.applied := by
    have hround : ∃ answer, step.2 = round project step.1 answer := by
      have hdrop : (normalize project texts rebind known answers).drop i =
          rounds project step.1 ((answers.take maxRounds).drop i) := drop_rounds hstep
      cases hrest : (answers.take maxRounds).drop i with
      | nil =>
        rw [hrest] at hdrop
        have hlength := (List.getElem?_eq_some_iff.1 hstep).1
        exact absurd (List.drop_eq_nil_iff.1 hdrop) (Nat.not_le.2 hlength)
      | cons answer rest =>
        rw [hrest, rounds, List.drop_eq_getElem_cons (List.getElem?_eq_some_iff.1 hstep).1,
          (List.getElem?_eq_some_iff.1 hstep).2] at hdrop
        exact ⟨answer, congrArg Prod.snd (List.cons.inj hdrop).1⟩
    obtain ⟨answer, hround⟩ := hround
    rw [hround] at hagain
    exact key_mem_applied hagain
  rcases applied_rounds hstep hkey with hold | ⟨j, hj, earlier, hearlier, proposal, hproposal, hsame⟩
  · cases hold
  · exact ⟨⟨j, i, hj, earlier, step, hearlier, hstep, proposal, again, hproposal, hagain, hsame⟩, rfl, rfl⟩

variable (hin : ∀ step ∈ normalize project texts rebind known answers, InText project last step)
  (s : Suppression (normalize project texts rebind known answers))

include hin

/-- The characters of the text now come from where they are followed to. -/
theorem Suppression.agrees :
    List.Forall₂ (Agrees s.sourceThen.toOriginal) (viewAll s.sourceNow.pieces) s.followed := by
  obtain ⟨horiginal, hsound⟩ := sound_rebound rebind project.index (texts s.done.key.file)
  have hthen := keeps_rounds hin (keeps_unedited hsound horiginal) s.at_first
  have hdrop := drop_rounds s.at_first
  have hnow : (rounds project s.before.1 ((answers.take maxRounds).drop s.first))[s.second - s.first]? =
      some s.after := by
    rw [← hdrop, List.getElem?_drop, Nat.add_sub_cancel' s.lt.le]
    exact s.at_second
  have hin' : ∀ step ∈ rounds project s.before.1 ((answers.take maxRounds).drop s.first), InText project last step := by
    rw [← hdrop]
    exact fun step hstep => hin step (List.drop_subset _ _ hstep)
  have hkeeps := keeps_rounds hin' (keeps_unedited hthen.sound hthen.original_eq) hnow
  rw [← hdrop] at hkeeps
  exact hkeeps.agrees

/-- **A place comes from another one** precisely if both are mapped to one original offset. -/
theorem Suppression.comesFrom_iff {now : ℕ} (hlt : now < s.sourceNow.text.length) (earlier : ℕ)
    (hknown : s.followed[now]? ≠ some none) :
    s.ComesFrom now earlier ↔ s.sourceNow.toOriginal now = s.sourceThen.toOriginal earlier := by
  have hagrees := s.agrees hin
  have hview : now < (viewAll s.sourceNow.pieces).length := by
    rw [length_viewAll]
    exact hlt
  have hfollowed : now < s.followed.length := hagrees.length_eq ▸ hview
  rw [List.getElem?_eq_getElem hfollowed] at hknown
  obtain ⟨origins, horigins⟩ := Option.ne_none_iff_exists'.1 fun h => hknown (congrArg some h)
  have hmin := hagrees.get hview hfollowed origins horigins
  have hplace := toOriginal_view (List.getElem?_eq_getElem hview)
  rw [ComesFrom, List.getElem?_eq_getElem hfollowed, horigins, hplace]
  constructor
  · rintro ⟨origins', heq, hmin'⟩
    cases heq
    exact Option.some.inj (hmin.symm.trans hmin')
  · intro heq
    exact ⟨origins, rfl, hmin.trans (congrArg some heq)⟩

theorem Suppression.inPlace_of_sameSpan (hspan : s.SameSpan project last) :
    s.InPlace project last ∨ s.Appended project last := by
  have hfile : s.again.key.file = s.done.key.file := by rw [s.key_eq]
  obtain ⟨hfirst, hlast⟩ := (hin s.after (List.mem_of_getElem? s.at_second)).construct s.again s.skipped
  rw [hfile] at hfirst hlast
  obtain ⟨hstart, hstop⟩ := Prod.mk.inj hspan
  by_cases happended : s.Appended project last
  · exact .inr happended
  · obtain ⟨hfirst', hlast'⟩ := not_or.1 happended
    exact .inl ⟨(s.comesFrom_iff hin hfirst _ hfirst').2 hstart, (s.comesFrom_iff hin hlast _ hlast').2 hstop⟩

theorem Suppression.sameSpan_of_inPlace (hplace : s.InPlace project last) : s.SameSpan project last := by
  have hfile : s.again.key.file = s.done.key.file := by rw [s.key_eq]
  obtain ⟨hfirst, hlast⟩ := (hin s.after (List.mem_of_getElem? s.at_second)).construct s.again s.skipped
  rw [hfile] at hfirst hlast
  have hknown : ∀ now earlier, s.ComesFrom now earlier → s.followed[now]? ≠ some none := by
    rintro now earlier ⟨origins, hat, -⟩ hnone
    rw [hat] at hnone
    cases hnone
  exact Prod.ext ((s.comesFrom_iff hin hfirst _ (hknown _ _ hplace.1)).1 hplace.1)
    ((s.comesFrom_iff hin hlast _ (hknown _ _ hplace.2)).1 hplace.2)

end Suppressions

/-- **Skipped proposals**: each is skipped for an earlier one; where the edits since have left both
constructs in place they are mapped to one span of the original, and only there, texts apart to whose end
something was put. -/
theorem suppressed_inPlace (project : Project) (last : LastOf) (texts : Text → Text) (rebind : List (Text × Text))
    (known : List Text) (answers : List Answer)
    (hin : ∀ step ∈ normalize project texts rebind known answers, InText project last step) :
    (∀ i step again, (normalize project texts rebind known answers)[i]? = some step → again ∈ step.2.skipped →
      ∃ s : Suppression (normalize project texts rebind known answers), s.second = i ∧ s.again = again) ∧
    ((∀ s : Suppression (normalize project texts rebind known answers), s.InPlace project last) →
      ∀ s : Suppression (normalize project texts rebind known answers), s.SameSpan project last) ∧
    ∀ s : Suppression (normalize project texts rebind known answers), s.SameSpan project last →
      s.InPlace project last ∨ s.Appended project last := by
  refine ⟨fun i step again hstep hagain => exists_suppression hstep hagain, ?_, ?_⟩
  · intro hplace s
    exact s.sameSpan_of_inPlace hin (hplace s)
  · intro s hspan
    exact s.inPlace_of_sameSpan hin hspan

/-- A run of two rounds has its skips in the second. -/
theorem Suppression.of_two {run : List (Normalizing × Round)} {step₀ step₁ : Normalizing × Round}
    (hrun : run = [step₀, step₁]) (s : Suppression run) : s.before = step₀ ∧ s.after = step₁ ∧
      s.followed = (editsOf step₀.2.accepted s.done.key.file).foldl (fun followed edit => edit.follow followed)
        (unedited (step₀.1.sources s.done.key.file).text.length) := by
  subst hrun
  have hlt := s.lt
  have hsecond : s.second < 2 := (List.getElem?_eq_some_iff.1 s.at_second).1
  have hzero : s.first = 0 := by omega
  have hone : s.second = 1 := by omega
  have hbefore : s.before = step₀ := by
    have hat := s.at_first
    rw [hzero] at hat
    exact (Option.some.inj hat).symm
  have hafter : s.after = step₁ := by
    have hat := s.at_second
    rw [hone] at hat
    exact (Option.some.inj hat).symm
  have hedits : s.edits = editsOf step₀.2.accepted s.done.key.file := by
    unfold Suppression.edits
    rw [hzero, hone]
    exact List.append_nil _
  refine ⟨hbefore, hafter, ?_⟩
  unfold Suppression.followed Suppression.sourceThen
  rw [hedits, hbefore]

/-! ## A name with two hashes -/

def localPrefixId : Text := "scl-local-prefix".toList

def isHash (token : LosslessToken) : Bool := token.kind = .error && token.text = ['#']

/-- `LocalPrefix.propose` (`rules/scl.py`): in the unit every `#` directly before a name goes. -/
def proposeLocalPrefix (context : RuleContext) (file : Text) (located : Located) : Option Proposal := do
  let token ← located.token
  guard (isHash token)
  let index := context.index file
  let low := (located.unit.map Unit.start).getD 0
  let high := (located.unit.map Unit.stop).getD index.text.length
  let edits := (index.tokens.zip index.tokens.tail).filterMap fun pair =>
    if low ≤ pair.1.start ∧ pair.1.start < high ∧ isHash pair.1 ∧
        pair.2.kind ∈ [TokenKind.identifier, .keyword, .wstring] then
      some ({ file, start := pair.1.start, stop := pair.1.stop } : FileEdit)
    else none
  guard (edits ≠ [])
  return { rule := localPrefixId, key := { rule := localPrefixId, file, offset := low }, edits }

def localPrefix : Rule where
  codes := ["E007".toList]
  propose context file located := (proposeLocalPrefix context file located, context.knownNames)

/-- Only the second hash stands directly before the name. -/
def twoHashes : Text := "FUNCTION F\n##x();\nEND_FUNCTION\n".toList

/-- A syntax error at the first character of a line. -/
def errorAtLine (line : ℕ) : Answer where
  check :=
    { returncode := 1
      diagnostics :=
        [{ isError := true, code := "E007".toList, file := some "f.st".toList, line, column := 1 }]
      panic := false }
  generated := { returncode := 0, diagnostics := [], panic := false }
  irWritten := false
  panics _ := false

def hashProject : Project where
  files := ["f.st".toList]
  rules := [localPrefix]
  index := SourceIndex.ofText asciiData

/-- The construct of a key is the unit that starts at its offset. -/
def unitLast : LastOf := fun index key =>
  ((index.units.find? fun unit => unit.start = key.offset).map fun unit => unit.stop - 1).getD key.offset

/-- The second hash goes, then the first one is reported again. -/
def hashRun : List (Normalizing × Round) :=
  normalize hashProject (fun _ => twoHashes) [] [] [errorAtLine 2, errorAtLine 2]

def hashKey : OffsetKey := { rule := localPrefixId, file := "f.st".toList, offset := 0 }

/-- Where the ends of the unit come from. -/
theorem hashRun_inText_followed : (∀ step ∈ hashRun, InText hashProject unitLast step) ∧
    hashRun.map (fun step => (step.2.accepted.map Proposal.key, step.2.skipped.map Proposal.key,
      unitLast (hashProject.index (step.1.sources hashKey.file).text) hashKey,
      ((editsOf step.2.accepted hashKey.file).foldl (fun followed edit => edit.follow followed)
        (unedited (step.1.sources hashKey.file).text.length)))) =
      [([hashKey], [], 29, (unedited 31).eraseIdx 12), ([], [hashKey], 28, unedited 30)] := by
  -- the kernel reads a list of characters faster than a literal
  unfold hashRun twoHashes
  rw [show String.toList "FUNCTION F\n##x();\nEND_FUNCTION\n" = _ from String.toList_ofList]
  decide +kernel

theorem inPlace_hashRun (s : Suppression hashRun) : s.InPlace hashProject unitLast := by
  have hsteps := hashRun_inText_followed.2
  obtain ⟨step₀, step₁, hrun⟩ := List.length_eq_two.1 (by simpa using congrArg List.length hsteps)
  obtain ⟨hbefore, hafter, hfollowed⟩ := s.of_two hrun
  simp only [hrun, List.map_cons, List.map_nil, List.cons.injEq, Prod.mk.injEq, and_true] at hsteps
  obtain ⟨⟨haccepted, -, hlast₀, hplaces⟩, -, -, hlast₁, -⟩ := hsteps
  have hkey : s.done.key = hashKey := by
    have := List.mem_map_of_mem (f := Proposal.key) s.accepted
    rw [hbefore, haccepted] at this
    exact List.mem_singleton.1 this
  rw [hkey, hplaces] at hfollowed
  unfold Suppression.InPlace Suppression.ComesFrom constructOf Suppression.sourceNow
    Suppression.sourceThen
  rw [← s.key_eq, hkey, hbefore, hafter, hlast₀, hlast₁, hfollowed]
  exact ⟨⟨[0], rfl, rfl⟩, [29], rfl, rfl⟩

/-- A statement is skipped in place, and its unit is mapped to the unit of the original. -/
theorem suppressed_inPlace_hashRun : (∃ s : Suppression hashRun, s.again.key = hashKey) ∧
    (∀ s : Suppression hashRun, s.SameSpan hashProject unitLast) ∧
    ∀ s : Suppression hashRun, s.InPlace hashProject unitLast ∨ s.Appended hashProject unitLast := by
  obtain ⟨hskipped, hsame, hplace⟩ := suppressed_inPlace hashProject unitLast (fun _ => twoHashes) [] []
    [errorAtLine 2, errorAtLine 2] hashRun_inText_followed.1
  have hspan := hsame inPlace_hashRun
  refine ⟨?_, hspan, fun s => hplace s (hspan s)⟩
  have hsteps := hashRun_inText_followed.2
  obtain ⟨step₀, step₁, hrun⟩ := List.length_eq_two.1 (by simpa using congrArg List.length hsteps)
  simp only [hrun, List.map_cons, List.map_nil, List.cons.injEq, Prod.mk.injEq, and_true] at hsteps
  obtain ⟨-, -, hkeys, -⟩ := hsteps
  obtain ⟨again, hagain, hkey⟩ := List.mem_map.1 (hkeys ▸ List.mem_singleton_self hashKey)
  obtain ⟨s, -, rfl⟩ := hskipped 1 step₁ again (by rw [show normalize _ _ _ _ _ = hashRun from rfl, hrun]; rfl)
    hagain
  exact ⟨s, hkey⟩

/-! ## An action before a method -/

/-- The members of a block, after its body. -/
def actionThenMethod : Text :=
  "FUNCTION_BLOCK F\nx();\nACTION F.A\nEND_ACTION\nMETHOD M\nEND_METHOD\nEND_FUNCTION_BLOCK\n".toList

/-- A syntax error at the third line. -/
def errorAtMember : Answer := errorAtLine 3

def blockProject : Project where
  files := ["f.st".toList]
  rules := [memberReorder]
  index := SourceIndex.ofText asciiData

/-- The action is moved, then the method stands where it stood. -/
def blockRun : List (Normalizing × Round) :=
  normalize blockProject (fun _ => actionThenMethod) [] [] [errorAtMember, errorAtMember]

theorem blockRun_spans :
    blockRun.map (fun step => ((step.1.sources "f.st".toList).toOriginal 22, step.2.skipped.map Proposal.key)) =
      [(22, []), (44, [{ rule := memberReorderId, file := "f.st".toList, offset := 22, tag := "move".toList }])] := by
  -- the kernel reads a list of characters faster than a literal
  unfold blockRun actionThenMethod
  rw [show String.toList "FUNCTION_BLOCK F\nx();\nACTION F.A\nEND_ACTION\nMETHOD M\nEND_METHOD\nEND_FUNCTION_BLOCK\n" = _
    from String.toList_ofList]
  decide +kernel

/-- **The method stays where it is**: it stands at the offset from which the action was moved, under the
key of that move. -/
theorem not_sameSpan_actionThenMethod : ¬∀ (last : LastOf) (s : Suppression blockRun), s.SameSpan blockProject last := by
  intro h
  have hspans := blockRun_spans
  obtain ⟨step₀, step₁, hrun⟩ := List.length_eq_two.1 (by simpa using congrArg List.length hspans)
  rw [hrun] at hspans
  obtain ⟨hthen, hnow⟩ := List.cons.inj hspans
  obtain ⟨hnow, hskipped⟩ := Prod.mk.inj (List.cons.inj hnow).1
  obtain ⟨again, hagain, hkey⟩ := List.mem_map.1 (hskipped ▸ List.mem_singleton_self _)
  have hstep : blockRun[1]? = some step₁ := by rw [hrun]; rfl
  obtain ⟨s, -, rfl⟩ := exists_suppression hstep hagain
  obtain ⟨hbefore, hafter, -⟩ := s.of_two hrun
  have hspan := (Prod.mk.inj (h (fun _ _ => 0) s)).1
  dsimp only [constructOf, Suppression.sourceNow, Suppression.sourceThen] at hspan
  rw [s.key_eq, hkey, hbefore, hafter] at hspan
  dsimp only at hspan
  rw [hnow, (Prod.mk.inj hthen).1] at hspan
  omega

end SemantiST.Intake
