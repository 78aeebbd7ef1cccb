import SemantiST.Intake.Views

/-!
# The mapping of an edited text

Whatever edits were made, each piece names a part of the original that holds all that its characters
come from: a precise piece is that part, and its characters are mapped one by one.
-/

namespace SemantiST.Intake

open Lib EditableSource

variable {original : Text} {source source' : EditableSource} {pieces : List Piece}
  {tracked : Tracked} {start stop destination : ℕ}

/-! ## Original offsets -/

/-- The original offset of a place in a piece. -/
theorem toOriginalFrom_mid (offset : ℕ) (before : List Piece) (piece : Piece) (after : List Piece)
    {i : ℕ} (hi : i < piece.text.length) (position : ℕ)
    (hoffset : offset = position + (before.flatMap Piece.text).length + i) :
    toOriginalFrom original offset position (before ++ piece :: after) =
      if piece.precise then piece.originalStart + i else piece.originalStart := by
  induction before generalizing position with
  | nil =>
    rw [List.nil_append, toOriginalFrom]
    rw [List.flatMap_nil, List.length_nil] at hoffset
    rw [if_pos (.inl (by omega)), show min (offset - position) piece.text.length = i by omega]
  | cons first before ih =>
    rw [List.flatMap_cons, List.length_append] at hoffset
    rw [List.cons_append, toOriginalFrom, if_neg (by simp; omega)]
    exact ih (position + first.text.length) (by omega)

theorem toOriginalFrom_le (hsound : ∀ piece ∈ pieces, piece.Sound original) (offset position : ℕ) :
    toOriginalFrom original offset position pieces ≤ original.length := by
  induction pieces generalizing position with
  | nil => exact le_rfl
  | cons piece pieces ih =>
    have hpiece := hsound piece List.mem_cons_self
    have hle := hpiece.le
    have hbound := hpiece.bound
    rw [toOriginalFrom]
    split
    · split
      · rename_i hprecise
        have hlength := hpiece.length hprecise
        omega
      · omega
    · exact ih (fun piece' h' => hsound piece' (List.mem_cons_of_mem _ h')) _

/-! ## What a replacement covers -/

theorem foldl_min_le (pieces : List Piece) (low : ℕ) :
    pieces.foldl (fun low piece => min low piece.originalStart) low ≤ low ∧
      ∀ piece ∈ pieces,
        pieces.foldl (fun low piece => min low piece.originalStart) low ≤ piece.originalStart := by
  induction pieces generalizing low with
  | nil => simp
  | cons piece pieces ih =>
    obtain ⟨hle, hall⟩ := ih (min low piece.originalStart)
    rw [List.foldl_cons, List.forall_mem_cons]
    exact ⟨hle.trans (min_le_left _ _), hle.trans (min_le_right _ _), hall⟩

theorem le_foldl_max (pieces : List Piece) (high : ℕ) :
    high ≤ pieces.foldl (fun high piece => max high piece.originalEnd) high ∧
      ∀ piece ∈ pieces,
        piece.originalEnd ≤ pieces.foldl (fun high piece => max high piece.originalEnd) high := by
  induction pieces generalizing high with
  | nil => simp
  | cons piece pieces ih =>
    obtain ⟨hle, hall⟩ := ih (max high piece.originalEnd)
    rw [List.foldl_cons, List.forall_mem_cons]
    exact ⟨(le_max_left _ _).trans hle, (le_max_right _ _).trans hle, hall⟩

theorem foldl_max_le (pieces : List Piece) {high bound : ℕ} (hhigh : high ≤ bound)
    (h : ∀ piece ∈ pieces, piece.originalEnd ≤ bound) :
    pieces.foldl (fun high piece => max high piece.originalEnd) high ≤ bound := by
  induction pieces generalizing high with
  | nil => exact hhigh
  | cons piece pieces ih =>
    rw [List.foldl_cons]
    exact ih (max_le hhigh (h piece List.mem_cons_self))
      fun piece' h' => h piece' (List.mem_cons_of_mem _ h')

/-- The span of covered pieces holds the span of each of them. -/
theorem coveredSpan_holds (origin : ℕ) {covered : List Piece} {piece : Piece} (h : piece ∈ covered) :
    (coveredSpan origin covered).1 ≤ piece.originalStart ∧
      piece.originalEnd ≤ (coveredSpan origin covered).2 := by
  cases covered with
  | nil => cases h
  | cons first rest =>
    have hmin := foldl_min_le rest first.originalStart
    have hmax := le_foldl_max rest first.originalEnd
    rcases List.mem_cons.1 h with rfl | h
    · exact ⟨hmin.1, hmax.1⟩
    · exact ⟨hmin.2 piece h, hmax.2 piece h⟩

theorem coveredSpan_bounds {origin : ℕ} {covered : List Piece} (horigin : origin ≤ original.length)
    (hsound : ∀ piece ∈ covered, piece.Sound original) :
    (coveredSpan origin covered).1 ≤ (coveredSpan origin covered).2 ∧
      (coveredSpan origin covered).2 ≤ original.length := by
  cases covered with
  | nil => exact ⟨le_rfl, horigin⟩
  | cons first rest =>
    have hfirst := hsound first List.mem_cons_self
    refine ⟨?_, ?_⟩
    · exact (foldl_min_le rest first.originalStart).1.trans
        (hfirst.le.trans (le_foldl_max rest first.originalEnd).1)
    · exact foldl_max_le rest hfirst.bound
        fun piece h => (hsound piece (List.mem_cons_of_mem _ h)).bound

/-! ## Characters and their origins -/

/-- What a piece names for a character is where the character comes from. -/
def Fits (original : Text) (entry : Char × Origin) (tracked : Char × List ℕ) : Prop :=
  entry.1 = tracked.1 ∧
    match entry.2 with
    | .at offset => tracked.2 = [offset] ∧ original[offset]? = some entry.1
    | .within first last => ∀ offset ∈ tracked.2, first ≤ offset ∧ offset < last

/-- The pieces of a text name what the characters come from. -/
structure Faithful (original : Text) (source : EditableSource) (tracked : Tracked) : Prop where
  original_eq : source.original = original
  sound : ∀ piece ∈ source.pieces, piece.Sound original
  fits : List.Forall₂ (Fits original) (viewAll source.pieces) tracked

theorem map_fst_of_fits {seen : List (Char × Origin)} (h : List.Forall₂ (Fits original) seen tracked) :
    seen.map Prod.fst = tracked.map Prod.fst := by
  induction h with
  | nil => rfl
  | cons hfirst _ ih => rw [List.map_cons, List.map_cons, hfirst.1, ih]

theorem Faithful.text_eq (h : Faithful original source tracked) :
    source.text = tracked.map Prod.fst := by
  rw [EditableSource.text, ← viewAll_fst]
  exact map_fst_of_fits h.fits

theorem forall₂_slice {α β : Type} {R : α → β → Prop} {l : List α} {l' : List β}
    (h : List.Forall₂ R l l') (start stop : ℕ) : List.Forall₂ R (slice start stop l) (slice start stop l') :=
  List.forall₂_drop _ (List.forall₂_take _ h)

theorem forall₂_moveSpan {α β : Type} {R : α → β → Prop} {l : List α} {l' : List β}
    (h : List.Forall₂ R l l') (start stop destination : ℕ) :
    List.Forall₂ R (moveSpan start stop destination l) (moveSpan start stop destination l') := by
  have hrest := List.rel_append (List.forall₂_take start h) (List.forall₂_drop stop h)
  exact List.rel_append (List.rel_append (List.forall₂_take _ hrest) (forall₂_slice h start stop))
    (List.forall₂_drop _ hrest)

/-- All that covered characters come from lies in the span of the covered pieces. -/
theorem covered_origins {covered : List Piece} (origin : ℕ)
    (hsound : ∀ piece ∈ covered, piece.Sound original)
    (h : List.Forall₂ (Fits original) (viewAll covered) tracked) :
    ∀ offset ∈ tracked.flatMap Prod.snd,
      (coveredSpan origin covered).1 ≤ offset ∧ offset < (coveredSpan origin covered).2 := by
  intro offset hoffset
  obtain ⟨entry, hentry, hoffset⟩ := List.mem_flatMap.1 hoffset
  obtain ⟨i, hi, rfl⟩ := List.getElem_of_mem hentry
  have hi' : i < (viewAll covered).length := h.length_eq ▸ hi
  have hfits := h.get hi' hi
  have hmem : (viewAll covered)[i] ∈ viewAll covered := List.getElem_mem hi'
  obtain ⟨piece, hpiece, hview⟩ := List.mem_flatMap.1 hmem
  have hholds := coveredSpan_holds origin hpiece
  simp only [List.get_eq_getElem] at hfits
  generalize (viewAll covered)[i] = seen at hfits hview
  unfold Piece.view at hview
  split at hview
  · rename_i hprecise
    obtain ⟨place, hplace, rfl⟩ := List.mem_map.1 hview
    have hlength := (hsound piece hpiece).length hprecise
    have hplace' := List.mem_zipIdx hplace
    rw [hfits.2.1] at hoffset
    have hoffset := List.mem_singleton.1 hoffset
    omega
  · obtain ⟨c, -, rfl⟩ := List.mem_map.1 hview
    have hbounds := hfits.2 offset hoffset
    omega

theorem faithful_ofText (original : Text) :
    Faithful original (.ofText original) (trackedText original) := by
  have hview : viewAll (ofText original).pieces =
      original.zipIdx.map fun entry => (entry.1, Origin.at entry.2) := by
    unfold ofText
    split
    · rename_i hempty
      subst hempty
      rfl
    · rw [viewAll_cons]
      simp [viewAll, Piece.view, Piece.precise, Piece.copied]
  refine ⟨rfl, ?_, ?_⟩
  · intro piece hpiece
    unfold ofText at hpiece
    split at hpiece
    · cases hpiece
    · rw [List.mem_singleton.1 hpiece]
      exact ⟨Nat.zero_le _, le_rfl, fun _ => by simp [slice]⟩
  · rw [hview, trackedText, List.forall₂_map_left_iff, List.forall₂_map_right_iff, List.forall₂_same]
    intro entry hentry
    obtain ⟨c, i⟩ := entry
    refine ⟨rfl, rfl, ?_⟩
    have h := List.mem_zipIdx_iff_getElem?.1 hentry
    simpa using h

/-! ## Edits -/

/-- The pieces of a text in which a span is replaced. -/
def replacedPieces (source : EditableSource) (start stop : ℕ) (replacement rule : Text) : List Piece :=
  let parts := cutSpan start stop 0 source.pieces
  let span := coveredSpan (source.toOriginal start) parts.2.1
  let new : Piece :=
    { text := replacement, originalStart := span.1, originalEnd := span.2, rule := some rule }
  (parts.1 ++ [new] ++ parts.2.2).filter fun piece => piece.text ≠ [] || !piece.copied

theorem replace_eq (source : EditableSource) (hle : start ≤ stop) (replacement rule : Text) :
    source.replace start stop replacement rule =
      .ok { source with pieces := replacedPieces source start stop replacement rule } := by
  rw [EditableSource.replace, if_neg (Nat.not_lt.2 hle)]
  rfl

/-- The characters of a replacement stand for the span of all that is covered. -/
theorem viewAll_replacedPieces (hle : start ≤ stop) (replacement rule : Text) :
    viewAll (replacedPieces source start stop replacement rule) =
      (viewAll source.pieces).take start ++
        replacement.map (fun c => (c, Origin.within
          (coveredSpan (source.toOriginal start) (cutSpan start stop 0 source.pieces).2.1).1
          (coveredSpan (source.toOriginal start) (cutSpan start stop 0 source.pieces).2.1).2)) ++
        (viewAll source.pieces).drop stop := by
  obtain ⟨hbefore, -, hafter⟩ := viewAll_cutSpan hle 0 source.pieces
  rw [replacedPieces, viewAll_filter]
  · rw [viewAll_append, viewAll_append, viewAll_cons, hbefore, hafter]
    simp [viewAll, Piece.view, Piece.precise, Piece.copied]
  · intro piece _ hdropped
    simp only [Bool.or_eq_false_iff] at hdropped
    simpa using hdropped.1

theorem sound_replacedPieces (hle : start ≤ stop) (horiginal : source.original = original)
    (h : ∀ piece ∈ source.pieces, piece.Sound original) (replacement rule : Text) :
    ∀ piece ∈ replacedPieces source start stop replacement rule, piece.Sound original := by
  obtain ⟨hsound, hsound', hsound''⟩ := sound_cutSpan hle 0 h
  have horigin : source.toOriginal start ≤ original.length := by
    rw [EditableSource.toOriginal, horiginal]
    exact toOriginalFrom_le h start 0
  have hbounds := coveredSpan_bounds horigin fun piece hpiece => (hsound' piece hpiece).1
  intro piece hpiece
  have hpiece := List.mem_of_mem_filter hpiece
  rcases List.mem_append.1 hpiece with hpiece | hpiece
  · rcases List.mem_append.1 hpiece with hpiece | hpiece
    · exact hsound piece hpiece
    · rw [List.mem_singleton.1 hpiece]
      exact ⟨hbounds.1, hbounds.2, fun hprecise => by cases hprecise⟩
  · exact hsound'' piece hpiece

theorem Faithful.replace (h : Faithful original source tracked) (hle : start ≤ stop)
    (replacement rule : Text) :
    Faithful original { source with pieces := replacedPieces source start stop replacement rule }
      ((Edit.replace start stop replacement rule).track tracked) := by
  obtain ⟨-, hcovered, -⟩ := viewAll_cutSpan hle 0 source.pieces
  obtain ⟨-, hsound', -⟩ := sound_cutSpan hle 0 h.sound
  refine ⟨h.original_eq, sound_replacedPieces hle h.original_eq h.sound replacement rule, ?_⟩
  rw [viewAll_replacedPieces hle]
  have hfits := h.fits
  refine List.rel_append (List.rel_append (List.forall₂_take _ hfits) ?_) (List.forall₂_drop _ hfits)
  rw [List.forall₂_map_left_iff, List.forall₂_map_right_iff, List.forall₂_same]
  intro c _
  refine ⟨rfl, covered_origins _ (fun piece hpiece => (hsound' piece hpiece).1) ?_⟩
  rw [hcovered]
  exact forall₂_slice hfits start stop

/-! ### Moving -/

/-- A moved piece keeps what it names. -/
theorem view_moved (piece : Piece) (rule : Text) :
    ({ piece with rule := some rule, isExact := piece.precise } : Piece).view = piece.view := by
  unfold Piece.view
  have hprecise : ({ piece with rule := some rule, isExact := piece.precise } : Piece).precise =
      piece.precise := rfl
  rw [hprecise]

theorem Piece.Sound.moved {piece : Piece} (h : piece.Sound original) (rule : Text) :
    ({ piece with rule := some rule, isExact := piece.precise } : Piece).Sound original :=
  ⟨h.le, h.bound, fun hprecise => h.text_eq hprecise⟩

theorem viewAll_insertMoved (moved : List Piece) {kept : List (ℕ × ℕ × Piece)}
    (hsorted : kept.Pairwise fun part part' => part.1 ≤ part'.1) :
    viewAll (insertMoved destination moved kept) =
      contents partView (kept.filter fun part => part.1 < destination) ++ viewAll moved ++
        contents partView (kept.filter fun part => destination ≤ part.1) := by
  induction kept with
  | nil => simp [insertMoved, contents]
  | cons part kept ih =>
    obtain ⟨hle, hrest⟩ := List.pairwise_cons.1 hsorted
    have ih := ih hrest
    obtain ⟨low, high, piece⟩ := part
    rw [insertMoved]
    split
    · rename_i hlow
      have hnone : ((low, high, piece) :: kept).filter (fun part => part.1 < destination) = [] := by
        rw [List.filter_eq_nil_iff]
        intro part hpart
        rcases List.mem_cons.1 hpart with rfl | hpart
        · simpa using hlow
        · simpa using hlow.trans (hle part hpart)
      have hall : ((low, high, piece) :: kept).filter (fun part => destination ≤ part.1) =
          (low, high, piece) :: kept := by
        rw [List.filter_eq_self]
        intro part hpart
        rcases List.mem_cons.1 hpart with rfl | hpart
        · simpa using hlow
        · simpa using hlow.trans (hle part hpart)
      rw [hnone, hall, viewAll_append, viewAll_cons, contents_cons]
      congr 2
      rw [viewAll, List.flatMap_map]
      rfl
    · rename_i hlow
      rw [viewAll_cons, ih, List.filter_cons_of_pos (by simp; omega),
        List.filter_cons_of_neg (by simp; omega), contents_cons, List.append_assoc, List.append_assoc,
        List.append_assoc]
      rfl

theorem mem_insertMoved {moved : List Piece} {kept : List (ℕ × ℕ × Piece)} {piece : Piece}
    (h : piece ∈ insertMoved destination moved kept) :
    piece ∈ moved ∨ ∃ part ∈ kept, part.2.2 = piece := by
  induction kept with
  | nil => exact .inl h
  | cons part kept ih =>
    obtain ⟨low, high, first⟩ := part
    rw [insertMoved] at h
    split at h
    · rcases List.mem_append.1 h with h | h
      · exact .inl h
      · rcases List.mem_cons.1 h with rfl | h
        · exact .inr ⟨_, List.mem_cons_self, rfl⟩
        · obtain ⟨part, hpart, rfl⟩ := List.mem_map.1 h
          exact .inr ⟨part, List.mem_cons_of_mem _ hpart, rfl⟩
    · rcases List.mem_cons.1 h with rfl | h
      · exact .inr ⟨_, List.mem_cons_self, rfl⟩
      · rcases ih h with h | ⟨part, hpart, rfl⟩
        · exact .inl h
        · exact .inr ⟨part, List.mem_cons_of_mem _ hpart, rfl⟩

/-- The pieces of a text in which a span is moved. -/
def movedPieces (source : EditableSource) (start stop destination : ℕ) (rule : Text) : List Piece :=
  let parts := cutParts start stop destination 0 source.pieces
  let inside := fun part : ℕ × ℕ × Piece => decide (start ≤ part.1 ∧ part.2.1 ≤ stop ∧ start < stop)
  let moved := (parts.filter inside).map fun part =>
    { part.2.2 with rule := some rule, isExact := part.2.2.precise }
  (insertMoved destination moved (parts.filter fun part => !inside part)).filter fun piece => piece.text ≠ []

theorem move_eq (source : EditableSource) (hout : ¬(start < destination ∧ destination < stop)) (rule : Text) :
    source.move start stop destination rule =
      .ok { source with pieces := movedPieces source start stop destination rule } := by
  rw [EditableSource.move, if_neg hout]
  rfl

theorem Tiled.pairwise {view : ℕ × Piece → List (Char × Origin)} {parts : List (ℕ × ℕ × Piece)}
    {position : ℕ} (h : Tiled view position parts) :
    parts.Pairwise fun part part' => part.1 ≤ part'.1 := by
  induction parts generalizing position with
  | nil => exact .nil
  | cons part parts ih =>
    obtain ⟨rfl, h⟩ := h
    rw [List.pairwise_cons]
    exact ⟨fun part' h' => (Nat.le_add_right _ _).trans (Tiled.low_le h part' h'), ih h⟩

section

variable {parts : List (ℕ × ℕ × Piece)} {whole : List (Char × Origin)}

/-- A part with text is moved when it starts in the span. -/
theorem inside_iff (hsound : ∀ part ∈ parts, SoundPart original part) (hstop : Clear partView stop parts)
    {part : ℕ × ℕ × Piece} (hpart : part ∈ parts) (hne : partView part.2 ≠ []) :
    (start ≤ part.1 ∧ part.2.1 ≤ stop ∧ start < stop) ↔ start ≤ part.1 ∧ part.1 < stop := by
  have hlength := (hsound part hpart).length
  have hpos : part.2.2.text.length ≠ 0 := by
    rw [partView, Ne, view_eq_nil, ← List.length_eq_zero_iff] at hne
    exact hne
  have hclear := hstop part hpart
  rw [partView, length_view] at hclear
  omega

variable {inside : ℕ × ℕ × Piece → Bool}
  (hinside : ∀ part ∈ parts, partView part.2 ≠ [] →
    (inside part = true ↔ start ≤ part.1 ∧ part.1 < stop))

include hinside

theorem contents_moved (htiled : Tiled partView 0 parts) (hwhole : contents partView parts = whole)
    (hstart : Clear partView start parts) (hstop : Clear partView stop parts) :
    contents partView (parts.filter inside) = slice start stop whole := by
  have hfilter : contents partView (parts.filter inside) =
      contents partView ((parts.filter fun part => part.1 < stop).filter fun part => start ≤ part.1) := by
    rw [List.filter_filter]
    apply contents_filter_congr
    intro part hpart hne
    rw [Bool.eq_iff_iff, hinside part hpart hne]
    simp
  rw [hfilter, contents_filter_ge (htiled.filter_lt stop) (hstart.filter _),
    contents_filter_lt htiled hstop, hwhole]
  rfl

/-- What is kept of the parts at some places, in terms of the places alone. -/
theorem contents_kept (p : ℕ → Bool) :
    contents partView (parts.filter fun part => p part.1 && !inside part) =
      contents partView ((parts.filter fun part => p part.1).filter fun part =>
        part.1 < start || decide (stop ≤ part.1)) := by
  rw [List.filter_filter]
  apply contents_filter_congr
  intro part hpart hne
  have hiff := hinside part hpart hne
  cases p part.1 with
  | false => simp
  | true =>
    rw [Bool.true_and, Bool.and_true, Bool.eq_iff_iff]
    simp only [Bool.or_eq_true, Bool.not_eq_true', Bool.eq_false_iff, Ne, hiff, decide_eq_true_eq]
    omega

/-- Places outside of the span are all kept. -/
theorem contents_kept_of_outside {p : ℕ → Bool} (houtside : ∀ place, p place = true → place < start ∨ stop ≤ place) :
    contents partView (parts.filter fun part => p part.1 && !inside part) =
      contents partView (parts.filter fun part => p part.1) := by
  rw [contents_kept hinside, List.filter_eq_self.2]
  intro part hpart
  simpa using houtside part.1 (List.mem_filter.1 hpart).2

/-- What stands before the place of a moved span. -/
theorem contents_before (hle : start ≤ stop) (htiled : Tiled partView 0 parts)
    (hwhole : contents partView parts = whole) (hstart : Clear partView start parts)
    (hstop : Clear partView stop parts) (hdestination : Clear partView destination parts) :
    contents partView (parts.filter fun part => decide (part.1 < destination) && !inside part) =
      if destination ≤ start then whole.take destination
      else whole.take start ++ slice stop destination whole := by
  split
  · rename_i hbefore
    rw [contents_kept_of_outside hinside (p := fun place => place < destination)
      fun place hplace => .inl (lt_of_lt_of_le (of_decide_eq_true hplace) hbefore),
      contents_filter_lt htiled hdestination, hwhole, Nat.sub_zero]
  · rename_i hbefore
    rw [contents_kept hinside fun place => place < destination,
      contents_filter_outside hle (htiled.filter_lt destination) (hstart.filter _) (hstop.filter _),
      contents_filter_lt htiled hdestination, hwhole, Nat.sub_zero, List.take_take, Nat.min_eq_left (by omega)]
    rfl

/-- What stands after the place of a moved span. -/
theorem contents_after (hle : start ≤ stop) (htiled : Tiled partView 0 parts)
    (hwhole : contents partView parts = whole) (hstart : Clear partView start parts)
    (hstop : Clear partView stop parts) (hdestination : Clear partView destination parts)
    (hout : destination ≤ start ∨ stop ≤ destination) :
    contents partView (parts.filter fun part => decide (destination ≤ part.1) && !inside part) =
      if destination ≤ start then slice destination start whole ++ whole.drop stop
      else whole.drop destination := by
  split
  · rename_i hbefore
    rw [contents_kept hinside fun place => destination ≤ place,
      contents_filter_outside hle (htiled.filter_ge hdestination (Nat.zero_le _)) (hstart.filter _) (hstop.filter _),
      contents_filter_ge htiled hdestination, hwhole, Nat.sub_zero, List.drop_drop, slice, List.drop_take,
      show destination + (stop - destination) = stop by omega]
  · rename_i hbefore
    rw [contents_kept_of_outside hinside (p := fun place => destination ≤ place)
      fun place hplace => .inr ((hout.resolve_left hbefore).trans (of_decide_eq_true hplace)),
      contents_filter_ge htiled hdestination, hwhole, Nat.sub_zero]

end

/-- A moved span keeps its characters and what they are mapped to. -/
theorem viewAll_movedPieces (hsound : ∀ piece ∈ source.pieces, piece.Sound original) (hle : start ≤ stop)
    (hlength : stop ≤ (viewAll source.pieces).length)
    (hout : ¬(start < destination ∧ destination < stop)) (rule : Text) :
    viewAll (movedPieces source start stop destination rule) =
      moveSpan start stop destination (viewAll source.pieces) := by
  obtain ⟨htiled, hwhole, hparts, hclear⟩ :=
    @tiled_cutParts original source.pieces start stop destination 0 hsound
  have hstart := hclear start (by simp)
  have hstop := hclear stop (by simp)
  have hdestination := hclear destination (by simp)
  have hout' : destination ≤ start ∨ stop ≤ destination := by omega
  rw [movedPieces, viewAll_filter (by simp), viewAll_insertMoved _ ((Tiled.pairwise htiled).filter _)]
  have hinside : ∀ part ∈ cutParts start stop destination 0 source.pieces, partView part.2 ≠ [] →
      (decide (start ≤ part.1 ∧ part.2.1 ≤ stop ∧ start < stop) = true ↔
        start ≤ part.1 ∧ part.1 < stop) := by
    intro part hpart hne
    rw [decide_eq_true_eq]
    exact inside_iff hparts hstop hpart hne
  have hmoved : viewAll (((cutParts start stop destination 0 source.pieces).filter fun part =>
      decide (start ≤ part.1 ∧ part.2.1 ≤ stop ∧ start < stop)).map fun part =>
        { part.2.2 with rule := some rule, isExact := part.2.2.precise }) =
      slice start stop (viewAll source.pieces) := by
    rw [← contents_moved hinside htiled hwhole hstart hstop, viewAll, List.flatMap_map]
    exact List.flatMap_congr fun part _ => view_moved part.2.2 rule
  rw [List.filter_filter, List.filter_filter, hmoved,
    contents_before hinside hle htiled hwhole hstart hstop hdestination,
    contents_after hinside hle htiled hwhole hstart hstop hdestination hout']
  split
  · rename_i hbefore
    exact (moveSpan_before hbefore (by omega)).symm
  · rename_i hbefore
    exact (moveSpan_after hle (by omega) (by omega) (by omega)).symm

theorem sound_movedPieces (h : ∀ piece ∈ source.pieces, piece.Sound original) (rule : Text) :
    ∀ piece ∈ movedPieces source start stop destination rule, piece.Sound original := by
  obtain ⟨-, -, hparts, -⟩ := @tiled_cutParts original source.pieces start stop destination 0 h
  intro piece hpiece
  rcases mem_insertMoved (List.mem_of_mem_filter hpiece) with hpiece | ⟨part, hpart, rfl⟩
  · obtain ⟨part, hpart, rfl⟩ := List.mem_map.1 hpiece
    exact (hparts part (List.mem_of_mem_filter hpart)).sound.moved rule
  · exact (hparts part (List.mem_of_mem_filter hpart)).sound

theorem length_viewAll (source : EditableSource) : (viewAll source.pieces).length = source.text.length := by
  rw [EditableSource.text, ← viewAll_fst, List.length_map]

theorem Faithful.move (h : Faithful original source tracked) (hle : start ≤ stop)
    (hlength : stop ≤ source.text.length) (hout : ¬(start < destination ∧ destination < stop)) (rule : Text) :
    Faithful original { source with pieces := movedPieces source start stop destination rule }
      ((Edit.move start stop destination rule).track tracked) := by
  refine ⟨h.original_eq, sound_movedPieces h.sound rule, ?_⟩
  rw [viewAll_movedPieces h.sound hle (length_viewAll source ▸ hlength) hout]
  exact forall₂_moveSpan h.fits start stop destination

/-! ## Sequences of edits -/

/-- An edit in range succeeds, does to the text what it says and keeps the mapping. -/
theorem Faithful.apply (h : Faithful original source tracked) {edit : Edit}
    (hrange : edit.InRange source.text.length) :
    ∃ source', source.apply edit = .ok source' ∧ Faithful original source' (edit.track tracked) := by
  cases edit with
  | replace start stop replacement rule =>
    exact ⟨_, replace_eq source hrange.1 replacement rule, h.replace hrange.1 replacement rule⟩
  | move start stop destination rule =>
    obtain ⟨hle, hstop, -, hout⟩ := hrange
    exact ⟨_, move_eq source hout rule, h.move hle hstop hout rule⟩

theorem Edited.faithful (h : Edited original source tracked) : Faithful original source tracked := by
  induction h with
  | start => exact faithful_ofText original
  | edit _ edit hrange happly ih =>
    obtain ⟨source'', happly', h⟩ := ih.apply hrange
    rw [happly] at happly'
    cases happly'
    exact h

theorem track_fst (edit : Edit) (tracked : Tracked) :
    (edit.track tracked).map Prod.fst = edit.applyText (tracked.map Prod.fst) := by
  cases edit with
  | replace start stop replacement rule =>
    simp only [Edit.track, Edit.applyText, replaceSpan_map, List.map_map]
    congr 1
    exact List.map_id _
  | move start stop destination rule => exact moveSpan_map ..

/-- What a character of a piece is mapped to. -/
theorem Faithful.fits_mid (h : Faithful original source tracked) {before after : List Piece} {piece : Piece}
    (hpieces : source.pieces = before ++ piece :: after) {i : ℕ} (hi : i < piece.text.length) :
    ∃ entry seen, tracked[(before.flatMap Piece.text).length + i]? = some entry ∧
      piece.view[i]? = some seen ∧ Fits original seen entry := by
  have hlength : (viewAll before).length = (before.flatMap Piece.text).length := by
    rw [← viewAll_fst, List.length_map]
  have hview : i < piece.view.length := by rw [length_view]; exact hi
  have hat : (viewAll source.pieces)[(before.flatMap Piece.text).length + i]? = some piece.view[i] := by
    rw [hpieces, viewAll_append, viewAll_cons, List.getElem?_append_right (by omega), hlength,
      Nat.add_sub_cancel_left, List.getElem?_append_left hview, List.getElem?_eq_getElem hview]
  obtain ⟨hplace, hseen⟩ := List.getElem?_eq_some_iff.1 hat
  have hplace' : (before.flatMap Piece.text).length + i < tracked.length := h.fits.length_eq ▸ hplace
  have hfits := h.fits.get hplace hplace'
  rw [List.get_eq_getElem, List.get_eq_getElem, hseen] at hfits
  exact ⟨_, _, List.getElem?_eq_getElem hplace', List.getElem?_eq_getElem hview, hfits⟩

/-- What the pieces and the mapping of an edited text promise. -/
structure Mapped (original : Text) (source : EditableSource) (tracked : Tracked) : Prop where
  text_eq : source.text = tracked.map Prod.fst
  /-- An edit in range changes the text as it says. -/
  edits : ∀ edit : Edit, edit.InRange source.text.length →
    ∃ source', source.apply edit = .ok source' ∧ source'.text = edit.applyText source.text
  precise_eq : ∀ piece ∈ source.pieces, piece.precise →
    piece.text = slice piece.originalStart piece.originalEnd original
  /-- A character of a precise piece is the original character that it is mapped to. -/
  precise_at : ∀ (before : List Piece) (piece : Piece) (after : List Piece) (i : ℕ),
    source.pieces = before ++ piece :: after → i < piece.text.length → piece.precise →
      let offset := (before.flatMap Piece.text).length + i
      source.text[offset]?.isSome ∧ original[source.toOriginal offset]? = source.text[offset]?
  /-- A character of a replacement is mapped to the start of a span that holds all it comes from. -/
  replaced_at : ∀ (before : List Piece) (piece : Piece) (after : List Piece) (i : ℕ),
    source.pieces = before ++ piece :: after → i < piece.text.length → ¬piece.precise →
      let offset := (before.flatMap Piece.text).length + i
      source.toOriginal offset = piece.originalStart ∧ piece.originalEnd ≤ original.length ∧
        ∃ entry, tracked[offset]? = some entry ∧
          ∀ origin ∈ entry.2, piece.originalStart ≤ origin ∧ origin < piece.originalEnd

/-- **After any edits** in range a precise piece is the part of the original that it names, a
replacement names a span that holds all that it stands for, and offsets are mapped accordingly. -/
theorem mapped_of_edited (h : Edited original source tracked) : Mapped original source tracked := by
  have hfaithful := h.faithful
  refine ⟨hfaithful.text_eq, ?_, ?_, ?_, ?_⟩
  · intro edit hrange
    obtain ⟨source', happly, hfaithful'⟩ := hfaithful.apply hrange
    refine ⟨source', happly, ?_⟩
    rw [hfaithful'.text_eq, track_fst, ← hfaithful.text_eq]
  · intro piece hpiece
    exact (hfaithful.sound piece hpiece).text_eq
  · intro before piece after i hpieces hi hprecise offset
    obtain ⟨entry, seen, hentry, hseen, hfits⟩ := hfaithful.fits_mid hpieces hi
    have htext : source.text[offset]? = some entry.1 := by
      rw [hfaithful.text_eq, List.getElem?_map, hentry]
      rfl
    have hplace : source.toOriginal offset = piece.originalStart + i := by
      rw [EditableSource.toOriginal, hpieces,
        toOriginalFrom_mid offset before piece after hi 0 (Nat.zero_add _ ▸ rfl), if_pos hprecise]
    rw [Piece.view, if_pos hprecise, List.getElem?_map, List.getElem?_zipIdx,
      List.getElem?_eq_getElem hi] at hseen
    cases hseen
    rw [htext, hplace, hfits.2.2, hfits.1]
    exact ⟨rfl, rfl⟩
  · intro before piece after i hpieces hi hprecise offset
    obtain ⟨entry, seen, hentry, hseen, hfits⟩ := hfaithful.fits_mid hpieces hi
    have hmem : piece ∈ source.pieces := by
      rw [hpieces]
      exact List.mem_append_right _ List.mem_cons_self
    rw [Piece.view, if_neg hprecise, List.getElem?_map, List.getElem?_eq_getElem hi] at hseen
    cases hseen
    refine ⟨?_, (hfaithful.sound piece hmem).bound, entry, hentry, hfits.2⟩
    rw [EditableSource.toOriginal, hpieces,
      toOriginalFrom_mid offset before piece after hi 0 (Nat.zero_add _ ▸ rfl), if_neg hprecise]

theorem mapped_movedReplacement :
    Mapped ['a', 'b', 'c']
      { original := ['a', 'b', 'c']
        pieces :=
          [{ text := ['y'], originalStart := 1, originalEnd := 2, rule := some ['r'] },
            { text := ['c'], originalStart := 2, originalEnd := 3 },
            { text := ['a'], originalStart := 0, originalEnd := 1, rule := some ['m'], isExact := true },
            { text := ['x'], originalStart := 1, originalEnd := 2, rule := some ['m'] }] }
      [('y', [1]), ('c', [2]), ('a', [0]), ('x', [1])] :=
  mapped_of_edited <|
    .edit (.edit .start (.replace 1 2 ['x', 'y'] ['r']) (by decide) rfl) (.move 0 2 4 ['m'])
      (by decide) (by decide +kernel)

end SemantiST.Intake
