import Mathlib.Data.List.Basic

/-!
# Lists cut into tiles

A list that is given as a row of pieces, each with the position where its contents start.  Where no
piece lies across a position, picking the pieces on one side of it picks that part of the list.
Replacing and moving a span of a list.
-/

namespace SemantiST.Lib

variable {α β : Type*}

/-! ## Spans -/

def slice (start stop : ℕ) (l : List α) : List α := (l.take stop).drop start

def replaceSpan (start stop : ℕ) (replacement l : List α) : List α :=
  l.take start ++ replacement ++ l.drop stop

/-- The span is taken out and put back, as it is, before what was at the destination. -/
def moveSpan (start stop destination : ℕ) (l : List α) : List α :=
  let rest := l.take start ++ l.drop stop
  let place := if destination ≤ start then destination else destination - (stop - start)
  rest.take place ++ slice start stop l ++ rest.drop place

theorem length_slice (start stop : ℕ) (l : List α) :
    (slice start stop l).length = min stop l.length - start := by
  rw [slice, List.length_drop, List.length_take]

theorem slice_append (start stop : ℕ) (l l' : List α) :
    slice start stop (l ++ l') =
      slice start stop l ++ slice (start - l.length) (stop - l.length) l' := by
  rw [slice, slice, slice, List.take_append, List.drop_append, List.length_take]
  by_cases h : l.length ≤ stop
  · rw [Nat.min_eq_right h]
  · have hzero : stop - l.length = 0 := by omega
    rw [hzero, List.take_zero, List.drop_nil, List.drop_nil]

/-- Consecutive spans make one span. -/
theorem slice_concat {start middle stop : ℕ} (h : start ≤ middle) (h' : middle ≤ stop) (l : List α) :
    slice start middle l ++ slice middle stop l = slice start stop l := by
  have htake : (l.take stop).take middle = l.take middle := by
    rw [List.take_take, Nat.min_eq_left h']
  have hsplit := congrArg (List.drop start) (List.take_append_drop middle (l.take stop))
  rw [htake, List.drop_append] at hsplit
  rw [slice, slice, slice, ← hsplit]
  by_cases hlength : middle ≤ l.length
  · have hzero : start - (l.take middle).length = 0 := by
      rw [List.length_take]
      omega
    rw [hzero, List.drop_zero]
  · have hnil : (l.take stop).drop middle = [] := by
      apply List.drop_of_length_le
      rw [List.length_take]
      omega
    rw [hnil, List.drop_nil]

theorem slice_slice {start stop first last : ℕ} {l : List α} (h : last ≤ stop - start) :
    slice first last (slice start stop l) = slice (start + first) (start + last) l := by
  apply List.ext_getElem?
  intro i
  simp only [slice, List.getElem?_drop, List.getElem?_take]
  by_cases hi : first + i < last
  · rw [if_pos hi, if_pos (by omega), if_pos (by omega), Nat.add_assoc]
  · rw [if_neg hi, if_neg (by omega)]

theorem slice_map {γ : Type*} (f : α → γ) (start stop : ℕ) (l : List α) :
    (slice start stop l).map f = slice start stop (l.map f) := by
  rw [slice, slice, List.map_drop, List.map_take]

theorem replaceSpan_map {γ : Type*} (f : α → γ) (start stop : ℕ) (replacement l : List α) :
    (replaceSpan start stop replacement l).map f =
      replaceSpan start stop (replacement.map f) (l.map f) := by
  simp only [replaceSpan, List.map_append, List.map_take, List.map_drop]

theorem length_moveSpan {start stop : ℕ} {l : List α} (hle : start ≤ stop) (hstop : stop ≤ l.length)
    (destination : ℕ) : (moveSpan start stop destination l).length = l.length := by
  simp only [moveSpan, List.length_append, length_slice, List.length_take, List.length_drop]
  omega

theorem moveSpan_map {γ : Type*} (f : α → γ) (start stop destination : ℕ) (l : List α) :
    (moveSpan start stop destination l).map f = moveSpan start stop destination (l.map f) := by
  simp only [moveSpan, slice, List.map_append, List.map_take, List.map_drop]

/-- A span before which something else is put. -/
theorem moveSpan_before {start stop destination : ℕ} {l : List α} (h : destination ≤ start)
    (hlength : start ≤ l.length) :
    moveSpan start stop destination l =
      l.take destination ++ slice start stop l ++ (slice destination start l ++ l.drop stop) := by
  have hrest : destination ≤ (l.take start).length := by
    rw [List.length_take]
    omega
  simp only [moveSpan, if_pos h, slice]
  rw [List.take_append_of_le_length hrest, List.drop_append_of_le_length hrest, List.take_take,
    Nat.min_eq_left h]

/-- A span after which something else is put. -/
theorem moveSpan_after {start stop destination : ℕ} {l : List α} (hle : start ≤ stop)
    (h : stop ≤ destination) (hne : start < destination) (hlength : start ≤ l.length) :
    moveSpan start stop destination l =
      (l.take start ++ slice stop destination l) ++ slice start stop l ++ l.drop destination := by
  have hlength' : (l.take start).length = start := by
    rw [List.length_take]
    omega
  have hplace : destination - (stop - start) = start + (destination - stop) := by omega
  have htake : (l.take start ++ l.drop stop).take (start + (destination - stop)) =
      l.take start ++ (l.drop stop).take (destination - stop) := by
    rw [List.take_append, hlength', List.take_of_length_le (by omega), Nat.add_sub_cancel_left]
  have hdrop : (l.take start ++ l.drop stop).drop (start + (destination - stop)) =
      (l.drop stop).drop (destination - stop) := by
    rw [List.drop_append, hlength', List.drop_of_length_le (by omega), Nat.add_sub_cancel_left,
      List.nil_append]
  simp only [moveSpan, if_neg (Nat.not_le.2 hne), slice, hplace, htake, hdrop]
  have hslice : (l.drop stop).take (destination - stop) = (l.take destination).drop stop :=
    (List.drop_take ..).symm
  rw [List.drop_drop, hslice, show stop + (destination - stop) = destination by omega]

/-! ## Tiles -/

section

variable (view : β → List α)

def contents (tiles : List (ℕ × β)) : List α := tiles.flatMap fun tile => view tile.2

/-- Each tile starts where the one before ends. -/
def Tiled : ℕ → List (ℕ × β) → Prop
  | _, [] => True
  | position, (low, piece) :: tiles => low = position ∧ Tiled (position + (view piece).length) tiles

/-- No tile lies across the position. -/
def Clear (cut : ℕ) (tiles : List (ℕ × β)) : Prop :=
  ∀ tile ∈ tiles, cut ≤ tile.1 ∨ tile.1 + (view tile.2).length ≤ cut

end

section

variable {view : β → List α} {position cut : ℕ} {tiles : List (ℕ × β)}

theorem contents_cons (tile : ℕ × β) (tiles : List (ℕ × β)) :
    contents view (tile :: tiles) = view tile.2 ++ contents view tiles := List.flatMap_cons ..

theorem contents_append (tiles tiles' : List (ℕ × β)) :
    contents view (tiles ++ tiles') = contents view tiles ++ contents view tiles' :=
  List.flatMap_append ..

/-- Tiles without contents may be left out. -/
theorem contents_filter_congr {p q : ℕ × β → Bool}
    (h : ∀ tile ∈ tiles, view tile.2 ≠ [] → p tile = q tile) :
    contents view (tiles.filter p) = contents view (tiles.filter q) := by
  induction tiles with
  | nil => rfl
  | cons tile tiles ih =>
    have ih := ih fun tile' h' => h tile' (List.mem_cons_of_mem _ h')
    by_cases hview : view tile.2 = []
    · simp only [List.filter_cons]
      split <;> split <;> simp [contents_cons, hview, ih]
    · rw [List.filter_cons, List.filter_cons, h tile List.mem_cons_self hview]
      split
      · rw [contents_cons, contents_cons, ih]
      · exact ih

theorem Tiled.low_le (h : Tiled view position tiles) : ∀ tile ∈ tiles, position ≤ tile.1 := by
  induction tiles generalizing position with
  | nil => simp
  | cons tile tiles ih =>
    obtain ⟨rfl, h⟩ := h
    intro tile' h'
    rcases List.mem_cons.1 h' with rfl | h'
    · exact Nat.le_refl _
    · exact Nat.le_trans (Nat.le_add_right _ _) (ih h tile' h')

theorem Tiled.append {tiles' : List (ℕ × β)} (h : Tiled view position tiles)
    (h' : Tiled view (position + (contents view tiles).length) tiles') :
    Tiled view position (tiles ++ tiles') := by
  induction tiles generalizing position with
  | nil => exact h'
  | cons tile tiles ih =>
    obtain ⟨hlow, h⟩ := h
    refine ⟨hlow, ih h ?_⟩
    rw [contents_cons, List.length_append, ← Nat.add_assoc] at h'
    exact h'

theorem Tiled.filter_lt (h : Tiled view position tiles) (cut : ℕ) :
    Tiled view position (tiles.filter fun tile => tile.1 < cut) := by
  induction tiles generalizing position with
  | nil => trivial
  | cons tile tiles ih =>
    have hall := h
    obtain ⟨rfl, h⟩ := h
    by_cases hlt : tile.1 < cut
    · rw [List.filter_cons_of_pos (by simpa using hlt)]
      exact ⟨rfl, ih h⟩
    · have hnone : (tile :: tiles).filter (fun tile => tile.1 < cut) = [] := by
        rw [List.filter_eq_nil_iff]
        intro tile' h'
        have hle := Tiled.low_le hall tile' h'
        simp only [decide_eq_true_eq]
        omega
      rw [hnone]
      trivial

theorem Tiled.filter_ge (h : Tiled view position tiles) (hclear : Clear view cut tiles)
    (hle : position ≤ cut) : Tiled view cut (tiles.filter fun tile => cut ≤ tile.1) := by
  induction tiles generalizing position with
  | nil => trivial
  | cons tile tiles ih =>
    have hall := h
    obtain ⟨rfl, h⟩ := h
    by_cases hcut : cut ≤ tile.1
    · have hself : (tile :: tiles).filter (fun tile => cut ≤ tile.1) = tile :: tiles := by
        rw [List.filter_eq_self]
        intro tile' h'
        simpa using Nat.le_trans hcut (Tiled.low_le hall tile' h')
      rw [hself, Nat.le_antisymm hcut hle]
      exact hall
    · have hend := hclear tile List.mem_cons_self
      rw [List.filter_cons_of_neg (by simpa using hcut)]
      exact ih h (fun tile' h' => hclear tile' (List.mem_cons_of_mem _ h')) (by omega)

theorem Clear.cons {tile : ℕ × β} (h : Clear view cut (tile :: tiles)) :
    (cut ≤ tile.1 ∨ tile.1 + (view tile.2).length ≤ cut) ∧ Clear view cut tiles :=
  ⟨h tile List.mem_cons_self, fun tile' h' => h tile' (List.mem_cons_of_mem _ h')⟩

theorem Clear.filter (h : Clear view cut tiles) (p : ℕ × β → Bool) :
    Clear view cut (tiles.filter p) := fun tile htile => h tile (List.mem_of_mem_filter htile)

/-- The tiles before a position. -/
theorem contents_filter_lt (h : Tiled view position tiles) (hclear : Clear view cut tiles) :
    contents view (tiles.filter fun tile => tile.1 < cut) =
      (contents view tiles).take (cut - position) := by
  induction tiles generalizing position with
  | nil => simp [contents]
  | cons tile tiles ih =>
    obtain ⟨hcut, hclear⟩ := hclear.cons
    obtain ⟨rfl, h⟩ := h
    have ih := ih h hclear
    rw [contents_cons, List.take_append]
    by_cases hlt : tile.1 < cut
    · have hwhole : (view tile.2).take (cut - tile.1) = view tile.2 :=
        List.take_of_length_le (by omega)
      rw [List.filter_cons_of_pos (by simpa using hlt), contents_cons, ih, hwhole, Nat.sub_sub]
    · have hzero : cut - (tile.1 + (view tile.2).length) = 0 := by omega
      have hzero' : cut - tile.1 = 0 := by omega
      rw [List.filter_cons_of_neg (by simpa using hlt), ih, hzero, hzero', List.take_zero, List.take_zero,
        Nat.zero_sub, List.take_zero]
      rfl

/-- The tiles from a position on. -/
theorem contents_filter_ge (h : Tiled view position tiles) (hclear : Clear view cut tiles) :
    contents view (tiles.filter fun tile => cut ≤ tile.1) =
      (contents view tiles).drop (cut - position) := by
  induction tiles generalizing position with
  | nil => simp [contents]
  | cons tile tiles ih =>
    obtain ⟨hcut, hclear⟩ := hclear.cons
    obtain ⟨rfl, h⟩ := h
    have ih := ih h hclear
    rw [contents_cons, List.drop_append]
    by_cases hle : cut ≤ tile.1
    · have hzero : cut - (tile.1 + (view tile.2).length) = 0 := by omega
      have hzero' : cut - tile.1 = 0 := by omega
      rw [List.filter_cons_of_pos (by simpa using hle), contents_cons, ih, hzero, hzero', List.drop_zero,
        List.drop_zero, Nat.zero_sub, List.drop_zero]
    · have hnone : (view tile.2).drop (cut - tile.1) = [] := List.drop_of_length_le (by omega)
      rw [List.filter_cons_of_neg (by simpa using hle), ih, hnone, List.nil_append, Nat.sub_sub]

/-- The tiles outside a span. -/
theorem contents_filter_outside {start stop : ℕ} (hle : start ≤ stop) (h : Tiled view position tiles)
    (hstart : Clear view start tiles) (hstop : Clear view stop tiles) :
    contents view (tiles.filter fun tile => tile.1 < start || decide (stop ≤ tile.1)) =
      (contents view tiles).take (start - position) ++ (contents view tiles).drop (stop - position) := by
  induction tiles generalizing position with
  | nil => simp [contents]
  | cons tile tiles ih =>
    obtain ⟨hcut, hstart⟩ := hstart.cons
    obtain ⟨hcut', hstop⟩ := hstop.cons
    obtain ⟨rfl, h⟩ := h
    have ih := ih h hstart hstop
    rw [contents_cons, List.take_append, List.drop_append]
    by_cases hlt : tile.1 < start
    · have hwhole : (view tile.2).take (start - tile.1) = view tile.2 :=
        List.take_of_length_le (by omega)
      have hnone : (view tile.2).drop (stop - tile.1) = [] := List.drop_of_length_le (by omega)
      rw [List.filter_cons_of_pos (by simp [hlt]), contents_cons, ih, hwhole, hnone, List.nil_append,
        Nat.sub_sub, Nat.sub_sub, List.append_assoc]
    · have hzero : start - (tile.1 + (view tile.2).length) = 0 := by omega
      have hzero' : start - tile.1 = 0 := by omega
      rw [hzero, List.take_zero, List.nil_append] at ih
      rw [hzero', List.take_zero, Nat.zero_sub, List.take_zero, List.nil_append, List.nil_append]
      by_cases hge : stop ≤ tile.1
      · have hstop' : stop - (tile.1 + (view tile.2).length) = 0 := by omega
        have hstop'' : stop - tile.1 = 0 := by omega
        rw [List.filter_cons_of_pos (by simp [hge]), contents_cons, ih, hstop', hstop'', List.drop_zero,
          List.drop_zero, Nat.zero_sub, List.drop_zero]
      · have hnone : (view tile.2).drop (stop - tile.1) = [] := List.drop_of_length_le (by omega)
        rw [List.filter_cons_of_neg (by simp; omega), ih, hnone, List.nil_append, Nat.sub_sub]

end

end SemantiST.Lib
