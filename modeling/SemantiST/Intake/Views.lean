import Mathlib.Data.List.Forall2
import SemantiST.Intake.SourceMap

/-!
# What the pieces of an edited text say

Each character of the pieces with the part of the original that its piece names.  An edit does to
these characters what it does to the text.
-/

namespace SemantiST.Intake

open Lib EditableSource

/-! ## The characters of a piece -/

/-- The part of the original that a piece names for one of its characters. -/
inductive Origin where
  | at (offset : ℕ)
  | within (start stop : ℕ)

def Piece.view (piece : Piece) : List (Char × Origin) :=
  if piece.precise then (piece.text.zipIdx piece.originalStart).map fun entry => (entry.1, .at entry.2)
  else piece.text.map fun c => (c, .within piece.originalStart piece.originalEnd)

def viewAll (pieces : List Piece) : List (Char × Origin) := pieces.flatMap Piece.view

variable {original : Text} {piece : Piece} {pieces : List Piece} {start stop destination : ℕ}

theorem view_fst (piece : Piece) : piece.view.map Prod.fst = piece.text := by
  unfold Piece.view
  split
  · rw [List.map_map]
    exact List.zipIdx_map_fst _ _
  · rw [List.map_map]
    exact List.map_id _

@[simp]
theorem length_view (piece : Piece) : piece.view.length = piece.text.length := by
  rw [← view_fst piece, List.length_map]

theorem view_eq_nil : piece.view = [] ↔ piece.text = [] := by
  rw [← List.length_eq_zero_iff, length_view, List.length_eq_zero_iff]

theorem viewAll_fst (pieces : List Piece) : (viewAll pieces).map Prod.fst = pieces.flatMap Piece.text := by
  rw [viewAll, List.map_flatMap]
  exact List.flatMap_congr fun piece _ => view_fst piece

theorem viewAll_append (pieces pieces' : List Piece) :
    viewAll (pieces ++ pieces') = viewAll pieces ++ viewAll pieces' := List.flatMap_append ..

theorem viewAll_cons (piece : Piece) (pieces : List Piece) :
    viewAll (piece :: pieces) = piece.view ++ viewAll pieces := List.flatMap_cons ..

/-- Pieces without text may be left out. -/
theorem viewAll_filter {p : Piece → Bool} (h : ∀ piece ∈ pieces, p piece = false → piece.text = []) :
    viewAll (pieces.filter p) = viewAll pieces := by
  induction pieces with
  | nil => rfl
  | cons piece pieces ih =>
    have ih := ih fun piece' h' => h piece' (List.mem_cons_of_mem _ h')
    rw [List.filter_cons, viewAll_cons]
    split
    · rw [viewAll_cons, ih]
    · rename_i hp
      rw [ih, view_eq_nil.2 (h piece List.mem_cons_self (by simpa using hp)), List.nil_append]

theorem slice_zipIdx {α : Type*} (start stop n : ℕ) (l : List α) :
    slice start stop (l.zipIdx n) = (slice start stop l).zipIdx (n + start) := by
  apply List.ext_getElem?
  intro i
  simp only [slice, List.getElem?_drop, List.getElem?_take, List.getElem?_zipIdx]
  split
  · rw [Nat.add_assoc]
  · rfl

@[simp]
theorem precise_slicePiece (piece : Piece) (start finish : ℕ) :
    (slicePiece piece start finish).precise = piece.precise := by
  unfold slicePiece
  split
  · rfl
  · rename_i h
    simp only [Piece.precise, Piece.copied, Bool.or_eq_true, not_or] at h ⊢
    simp [h]

theorem view_slicePiece (piece : Piece) (start finish : ℕ) :
    (slicePiece piece start finish).view = slice start finish piece.view := by
  rw [Piece.view, precise_slicePiece, Piece.view]
  by_cases h : piece.precise
  · simp only [slicePiece, h, if_true]
    rw [← slice_map, slice_zipIdx]
  · simp only [slicePiece, h, if_false, Bool.false_eq_true]
    rw [slice_map]

theorem text_slicePiece (piece : Piece) (start finish : ℕ) :
    (slicePiece piece start finish).text = slice start finish piece.text := by
  unfold slicePiece
  split <;> rfl

/-! ## Pieces that name what they hold -/

structure Piece.Sound (original : Text) (piece : Piece) : Prop where
  le : piece.originalStart ≤ piece.originalEnd
  bound : piece.originalEnd ≤ original.length
  text_eq : piece.precise → piece.text = slice piece.originalStart piece.originalEnd original

theorem Piece.Sound.length (h : piece.Sound original) (hprecise : piece.precise) :
    piece.text.length = piece.originalEnd - piece.originalStart := by
  rw [h.text_eq hprecise, length_slice, Nat.min_eq_left h.bound]

theorem Piece.Sound.slicePiece (h : piece.Sound original) {first last : ℕ} (hle : first ≤ last)
    (hlast : last ≤ piece.text.length) : (slicePiece piece first last).Sound original := by
  have hbounds := h.le
  have hbound := h.bound
  by_cases hprecise : piece.precise
  · have hlength := h.length hprecise
    refine ⟨?_, ?_, fun _ => ?_⟩
    · simp only [EditableSource.slicePiece, hprecise, if_true]
      omega
    · simp only [EditableSource.slicePiece, hprecise, if_true]
      omega
    · simp only [EditableSource.slicePiece, hprecise, if_true]
      rw [h.text_eq hprecise, slice_slice (by omega)]
  · refine ⟨?_, ?_, fun hprecise' => ?_⟩
    · simpa [EditableSource.slicePiece, hprecise] using hbounds
    · simpa [EditableSource.slicePiece, hprecise] using hbound
    · rw [precise_slicePiece] at hprecise'
      exact absurd hprecise' hprecise

/-! ## Cutting a span out -/

theorem slice_view_inner (start stop position : ℕ) (piece : Piece) :
    (slicePiece piece (max start position - position)
      (min stop (position + piece.text.length) - position)).view =
      slice (start - position) (stop - position) piece.view := by
  have hstart : max start position - position = start - position := by omega
  rw [view_slicePiece, hstart, slice, slice]
  by_cases h : stop ≤ position + piece.text.length
  · rw [Nat.min_eq_left h]
  · rw [Nat.min_eq_right (by omega), Nat.add_sub_cancel_left, List.take_of_length_le (by simp),
      List.take_of_length_le (by rw [length_view]; omega)]

/-- The parts of the pieces before, in and after a span. -/
theorem viewAll_cutSpan (hle : start ≤ stop) (position : ℕ) (pieces : List Piece) :
    viewAll (cutSpan start stop position pieces).1 = (viewAll pieces).take (start - position) ∧
      viewAll (cutSpan start stop position pieces).2.1 =
        slice (start - position) (stop - position) (viewAll pieces) ∧
      viewAll (cutSpan start stop position pieces).2.2 = (viewAll pieces).drop (stop - position) := by
  induction pieces generalizing position with
  | nil => simp [cutSpan, viewAll, slice]
  | cons piece pieces ih =>
    obtain ⟨hbefore, hcovered, hafter⟩ := ih (position + piece.text.length)
    rw [Nat.sub_add_eq] at hbefore hcovered hafter
    rw [Nat.sub_add_eq] at hcovered
    have hlength := length_view piece
    rw [viewAll_cons, List.take_append, slice_append, List.drop_append, hlength, ← hbefore,
      ← hcovered, ← hafter]
    simp only [cutSpan]
    split
    · rename_i hcase
      have htake : piece.view.take (start - position) = piece.view :=
        List.take_of_length_le (by omega)
      have hslice : slice (start - position) (stop - position) piece.view = [] :=
        List.drop_of_length_le (by rw [List.length_take]; omega)
      have hdrop : piece.view.drop (stop - position) = [] := List.drop_of_length_le (by omega)
      rw [htake, hslice, hdrop, viewAll_cons]
      exact ⟨rfl, rfl, rfl⟩
    · split
      · rename_i hcase
        have hstart : start - position = 0 := by omega
        have hstop : stop - position = 0 := by omega
        rw [hstart, hstop, viewAll_cons]
        exact ⟨rfl, rfl, rfl⟩
      · rename_i hcase hcase'
        refine ⟨?_, ?_, ?_⟩
        · rw [viewAll_append]
          congr 1
          split
          · rw [viewAll_cons, view_slicePiece]
            simp [viewAll, slice]
          · have hstart : start - position = 0 := by omega
            rw [hstart]
            rfl
        · rw [viewAll_append, ← slice_view_inner]
          congr 1
          split
          · rename_i hempty
            exact (view_eq_nil.2 hempty).symm
          · rw [viewAll_cons]
            exact List.append_nil _
        · rw [viewAll_append]
          congr 1
          split
          · rw [viewAll_cons, view_slicePiece, Nat.add_sub_cancel_left, slice,
              List.take_of_length_le (by omega)]
            exact List.append_nil _
          · exact (List.drop_of_length_le (by omega)).symm

/-- All parts of the pieces name what they hold, and what is replaced is not empty. -/
theorem sound_cutSpan (hle : start ≤ stop) (position : ℕ) (hsound : ∀ piece ∈ pieces, piece.Sound original) :
    (∀ piece ∈ (cutSpan start stop position pieces).1, piece.Sound original) ∧
      (∀ piece ∈ (cutSpan start stop position pieces).2.1, piece.Sound original ∧ piece.text ≠ []) ∧
      ∀ piece ∈ (cutSpan start stop position pieces).2.2, piece.Sound original := by
  induction pieces generalizing position with
  | nil => simp [cutSpan]
  | cons piece pieces ih =>
    have hpiece := hsound piece List.mem_cons_self
    obtain ⟨hbefore, hcovered, hafter⟩ := ih (position + piece.text.length)
      fun piece' h' => hsound piece' (List.mem_cons_of_mem _ h')
    simp only [cutSpan]
    split
    · exact ⟨List.forall_mem_cons.2 ⟨hpiece, hbefore⟩, hcovered, hafter⟩
    · split
      · exact ⟨hbefore, hcovered, List.forall_mem_cons.2 ⟨hpiece, hafter⟩⟩
      · rename_i hcase hcase'
        refine ⟨?_, ?_, ?_⟩
        · intro piece' h'
          rcases List.mem_append.1 h' with h' | h'
          · split at h'
            · rw [List.mem_singleton.1 h']
              exact hpiece.slicePiece (by omega) (by omega)
            · cases h'
          · exact hbefore piece' h'
        · intro piece' h'
          rcases List.mem_append.1 h' with h' | h'
          · split at h'
            · cases h'
            · rename_i hne
              rw [List.mem_singleton.1 h']
              exact ⟨hpiece.slicePiece (by omega) (by omega), hne⟩
          · exact hcovered piece' h'
        · intro piece' h'
          rcases List.mem_append.1 h' with h' | h'
          · split at h'
            · rw [List.mem_singleton.1 h']
              exact hpiece.slicePiece (by omega) (by omega)
            · cases h'
          · exact hafter piece' h'

/-! ## Cutting at bounds -/

/-- The contents of a part, whose upper bound stands beside it. -/
def partView (part : ℕ × Piece) : List (Char × Origin) := part.2.view

/-- A part lies between its bounds and names what it holds. -/
structure SoundPart (original : Text) (part : ℕ × ℕ × Piece) : Prop where
  length : part.1 + part.2.2.text.length = part.2.1
  sound : part.2.2.Sound original

theorem partsBetween_cons (piece : Piece) (position low high : ℕ) (bounds : List ℕ) :
    partsBetween piece position (low :: high :: bounds) =
      (low, high, slicePiece piece (low - position) (high - position)) ::
        partsBetween piece position (high :: bounds) := rfl

/-- The parts of a piece between bounds that go up to its end. -/
theorem tiled_partsBetween {position : ℕ} (hsound : piece.Sound original) {low : ℕ} (bounds : List ℕ)
    (hlow : position ≤ low) (hsorted : (low :: bounds).Pairwise (· ≤ ·))
    (hlast : (low :: bounds).getLast (List.cons_ne_nil _ _) = position + piece.text.length) :
    Tiled partView low (partsBetween piece position (low :: bounds)) ∧
      contents partView (partsBetween piece position (low :: bounds)) =
        slice (low - position) piece.text.length piece.view ∧
      ∀ part ∈ partsBetween piece position (low :: bounds), SoundPart original part := by
  induction bounds generalizing low with
  | nil =>
    rw [List.getLast_singleton] at hlast
    refine ⟨trivial, ?_, by simp [partsBetween]⟩
    symm
    apply List.drop_of_length_le
    rw [List.length_take, length_view]
    omega
  | cons high bounds ih =>
    obtain ⟨hle, hsorted⟩ := List.pairwise_cons.1 hsorted
    have hlow' := hle high List.mem_cons_self
    rw [List.getLast_cons (List.cons_ne_nil _ _)] at hlast
    obtain ⟨htiled, hcontents, hparts⟩ := ih (by omega) hsorted hlast
    have hhigh : high ≤ position + piece.text.length := by
      rw [← hlast]
      rcases List.mem_cons.1 (List.getLast_mem (List.cons_ne_nil high bounds)) with heq | hmem
      · exact heq.ge
      · exact (List.pairwise_cons.1 hsorted).1 _ hmem
    have hlength : (slicePiece piece (low - position) (high - position)).text.length = high - low := by
      rw [text_slicePiece, length_slice]
      omega
    rw [partsBetween_cons]
    refine ⟨⟨rfl, ?_⟩, ?_, ?_⟩
    · rw [partView, length_view, hlength, show low + (high - low) = high by omega]
      exact htiled
    · rw [contents_cons, hcontents, partView, view_slicePiece]
      exact slice_concat (by omega) (by omega) _
    · intro part hpart
      rcases List.mem_cons.1 hpart with rfl | hpart
      · exact ⟨by simp only [hlength]; omega, hsound.slicePiece (by omega) (by omega)⟩
      · exact hparts part hpart

/-- No part lies across a bound. -/
theorem clear_partsBetween {position cut low : ℕ} (bounds : List ℕ)
    (hsorted : (low :: bounds).Pairwise (· ≤ ·))
    (hcut : cut ≤ low ∨ cut ∈ bounds ∨ ∀ bound ∈ bounds, bound ≤ cut) :
    ∀ part ∈ partsBetween piece position (low :: bounds), cut ≤ part.1 ∨ part.2.1 ≤ cut := by
  induction bounds generalizing low with
  | nil => simp [partsBetween]
  | cons high bounds ih =>
    obtain ⟨hle, hsorted⟩ := List.pairwise_cons.1 hsorted
    intro part hpart
    rw [partsBetween_cons] at hpart
    rcases List.mem_cons.1 hpart with rfl | hpart
    · rcases hcut with hcut | hcut | hcut
      · exact .inl hcut
      · rcases List.mem_cons.1 hcut with rfl | hcut
        · exact .inr le_rfl
        · exact .inr ((List.pairwise_cons.1 hsorted).1 cut hcut)
      · exact .inr (hcut high List.mem_cons_self)
    · refine ih hsorted ?_ part hpart
      rcases hcut with hcut | hcut | hcut
      · exact .inl (hcut.trans (hle high List.mem_cons_self))
      · rcases List.mem_cons.1 hcut with rfl | hcut
        · exact .inl le_rfl
        · exact .inr (.inl hcut)
      · exact .inr (.inr fun bound hbound => hcut bound (List.mem_cons_of_mem _ hbound))

theorem pairwise_sortedSet (l : List ℕ) : (sortedSet l).Pairwise (· ≤ ·) := by
  have hordered := Std.ExtTreeSet.ordered_toList
    (t := l.foldl (fun s k => s.insert k) (∅ : Std.ExtTreeSet ℕ compare))
  exact hordered.imp fun h => (Nat.compare_eq_lt.1 h).le

/-- The bounds at which a piece is cut. -/
theorem pairwise_bounds (cuts : List ℕ) (low high : ℕ) (hle : low ≤ high) :
    (low :: ((sortedSet cuts).filter fun cut => low < cut ∧ cut < high) ++ [high]).Pairwise (· ≤ ·) := by
  rw [List.cons_append, List.pairwise_cons, List.pairwise_append]
  refine ⟨?_, (pairwise_sortedSet cuts).filter _, List.pairwise_singleton _ _, ?_⟩
  · intro bound hbound
    rcases List.mem_append.1 hbound with hbound | hbound
    · have hcut := (List.mem_filter.1 hbound).2
      simp only [decide_eq_true_eq] at hcut
      exact hcut.1.le
    · rw [List.mem_singleton.1 hbound]
      exact hle
  · intro bound hbound bound' hbound'
    have hcut := (List.mem_filter.1 hbound).2
    simp only [decide_eq_true_eq] at hcut
    rw [List.mem_singleton.1 hbound']
    exact hcut.2.le

/-- The pieces cut at the ends of a span and at its destination. -/
theorem tiled_cutParts (position : ℕ) (hsound : ∀ piece ∈ pieces, piece.Sound original) :
    Tiled partView position (cutParts start stop destination position pieces) ∧
      contents partView (cutParts start stop destination position pieces) = viewAll pieces ∧
      (∀ part ∈ cutParts start stop destination position pieces, SoundPart original part) ∧
      ∀ cut ∈ [start, stop, destination],
        Clear partView cut (cutParts start stop destination position pieces) := by
  induction pieces generalizing position with
  | nil => exact ⟨trivial, rfl, by simp [cutParts], fun cut _ tile htile => by cases htile⟩
  | cons piece pieces ih =>
    have hpiece := hsound piece List.mem_cons_self
    obtain ⟨htiled, hcontents, hparts, hclear⟩ := ih (position + piece.text.length)
      fun piece' h' => hsound piece' (List.mem_cons_of_mem _ h')
    have hsorted := pairwise_bounds ([start, stop, destination].filter fun cut =>
      cut ≠ position ∧ cut ≠ position + piece.text.length) position (position + piece.text.length)
      (Nat.le_add_right _ _)
    rw [List.cons_append] at hsorted
    obtain ⟨htiled', hcontents', hparts'⟩ := tiled_partsBetween hpiece _ (le_refl position)
      hsorted (by rw [List.getLast_cons (by simp), List.getLast_append_singleton])
    have hwhole : slice (position - position) piece.text.length piece.view = piece.view := by
      rw [Nat.sub_self, slice, List.drop_zero, List.take_of_length_le (by rw [length_view])]
    rw [hwhole] at hcontents'
    simp only [cutParts, List.cons_append]
    refine ⟨htiled'.append ?_, ?_, ?_, ?_⟩
    · rw [hcontents', length_view]
      exact htiled
    · rw [contents_append, hcontents', hcontents, viewAll_cons]
    · intro part hpart
      rcases List.mem_append.1 hpart with hpart | hpart
      · exact hparts' part hpart
      · exact hparts part hpart
    · intro cut hcut part hpart
      rcases List.mem_append.1 hpart with hpart | hpart
      · rw [partView, length_view, (hparts' part hpart).length]
        refine clear_partsBetween _ hsorted ?_ part hpart
        by_cases hlow : cut ≤ position
        · exact .inl hlow
        · by_cases hhigh : position + piece.text.length ≤ cut
          · refine .inr (.inr fun bound hbound => ?_)
            rcases List.mem_append.1 hbound with hbound | hbound
            · have h := (List.mem_filter.1 hbound).2
              simp only [decide_eq_true_eq] at h
              omega
            · rw [List.mem_singleton.1 hbound]
              exact hhigh
          · refine .inr (.inl (List.mem_append_left _ (List.mem_filter.2 ⟨?_, ?_⟩)))
            · rw [mem_sortedSet, List.mem_filter]
              exact ⟨hcut, by simp; omega⟩
            · simp
              omega
      · exact hclear cut hcut part hpart

end SemantiST.Intake
