import SemantiST.Lib.Loop
import Mathlib.Data.List.Infix

/-!
# Leaving out blocks of a list

A list that passes a test is made shorter: at each place the first block whose absence keeps the test
passed is left out.  A sweep that leaves nothing out shows that no single element can be left out.
-/

namespace SemantiST.Lib

variable {α : Type} (test : List α → Bool) (blocks : List ℕ)

/-- The list without `block` elements at a place. -/
def without (l : List α) (place block : ℕ) : List α := l.take place ++ l.drop (place + block)

/-- The first block that can be left out at a place, not with the whole list. -/
def firstBlock (l : List α) (place : ℕ) : Option ℕ :=
  blocks.find? fun block => place + block ≤ l.length ∧ (without l place block).isEmpty = false ∧
    test (without l place block) = true

/-- A round of a sweep: a block is left out, or the next place is looked at. -/
def sweepStep (s : List α × ℕ) : Option (List α × ℕ) :=
  if s.2 < s.1.length then
    match firstBlock test blocks s.1 s.2 with
    | some block => some (without s.1 s.2 block, s.2)
    | none => some (s.1, s.2 + 1)
  else none

variable {test blocks} {l : List α} {place block : ℕ} {s s' t : List α × ℕ}

theorem without_sublist : (without l place block).Sublist l := by
  have hdrop : (l.drop (place + block)).Sublist (l.drop place) := by
    rw [← List.drop_drop]
    exact List.drop_sublist _ _
  have h := (List.Sublist.refl (l.take place)).append hdrop
  rwa [List.take_append_drop] at h

theorem length_without (h : place + block ≤ l.length) :
    (without l place block).length = l.length - block := by
  rw [without, List.length_append, List.length_take, List.length_drop]
  omega

theorem without_one (l : List α) (place : ℕ) : without l place 1 = l.eraseIdx place :=
  (List.eraseIdx_eq_take_drop_succ l place).symm

theorem firstBlock_eq_some (h : firstBlock test blocks l place = some block) :
    block ∈ blocks ∧ place + block ≤ l.length ∧ without l place block ≠ [] ∧
      test (without l place block) = true := by
  have hfound := List.find?_some h
  rw [decide_eq_true_eq] at hfound
  obtain ⟨hfits, hne, htest⟩ := hfound
  exact ⟨List.mem_of_find?_eq_some h, hfits, List.isEmpty_eq_false_iff.1 hne, htest⟩

/-- What a round does. -/
theorem sweepStep_cases (h : sweepStep test blocks s = some s') : s.2 < s.1.length ∧
    ((∃ block, firstBlock test blocks s.1 s.2 = some block ∧ s' = (without s.1 s.2 block, s.2)) ∨
      (firstBlock test blocks s.1 s.2 = none ∧ s' = (s.1, s.2 + 1))) := by
  unfold sweepStep at h
  split at h
  · rename_i hlt
    refine ⟨hlt, ?_⟩
    split at h
    · rename_i block hblock
      exact .inl ⟨block, hblock, (Option.some.inj h).symm⟩
    · rename_i hnone
      exact .inr ⟨hnone, (Option.some.inj h).symm⟩
  · cases h

/-- **A sweep ends**, within as many rounds as there are places after the first one. -/
theorem sweep_ends (test : List α → Bool) (hpos : ∀ block ∈ blocks, 0 < block) {n : ℕ} (hn : s.1.length - s.2 ≤ n) :
    Loop (sweepStep test blocks) s (loop (sweepStep test blocks) n s) := by
  refine loop_ends (fun s => s.1.length - s.2) (fun s s' h => ?_) hn
  obtain ⟨hlt, ⟨block, hblock, rfl⟩ | ⟨-, rfl⟩⟩ := sweepStep_cases h
  · obtain ⟨hmem, hfits, -⟩ := firstBlock_eq_some hblock
    have hblock := hpos block hmem
    simp only [length_without hfits]
    omega
  · simp only
    omega

/-- What a sweep leaves of a list. -/
structure Left (test : List α → Bool) (l l' : List α) : Prop where
  sublist : l'.Sublist l
  nonempty : l ≠ [] → l' ≠ []
  passes : l' = l ∨ test l' = true

theorem Left.refl (test : List α → Bool) (l : List α) : Left test l l :=
  ⟨List.Sublist.refl l, id, .inl rfl⟩

theorem Left.trans {l l' l'' : List α} (h : Left test l l') (h' : Left test l' l'') :
    Left test l l'' where
  sublist := h'.sublist.trans h.sublist
  nonempty := fun hne => h'.nonempty (h.nonempty hne)
  passes := by
    rcases h'.passes with rfl | htest
    · exact h.passes
    · exact .inr htest

theorem left_sweepStep (h : sweepStep test blocks s = some s') : Left test s.1 s'.1 := by
  obtain ⟨-, ⟨block, hblock, rfl⟩ | ⟨-, rfl⟩⟩ := sweepStep_cases h
  · obtain ⟨-, -, hne, htest⟩ := firstBlock_eq_some hblock
    exact ⟨without_sublist, fun _ => hne, .inr htest⟩
  · exact Left.refl test _

theorem left_sweep (h : Loop (sweepStep test blocks) s t) : Left test s.1 t.1 := by
  induction h with
  | exit _ => exact Left.refl test _
  | next hstep _ ih => exact (left_sweepStep hstep).trans ih

/-- **A sweep that leaves nothing out** found no block at any place. -/
theorem firstBlock_eq_none (hpos : ∀ block ∈ blocks, 0 < block)
    (h : Loop (sweepStep test blocks) s t) (hsame : t.1.length = s.1.length) {place : ℕ}
    (hplace : s.2 ≤ place) (hlt : place < s.1.length) : firstBlock test blocks s.1 place = none := by
  induction h with
  | exit hexit =>
    unfold sweepStep at hexit
    split at hexit
    · split at hexit <;> cases hexit
    · omega
  | next hstep hloop ih =>
    obtain ⟨hlt', ⟨block, hblock, rfl⟩ | ⟨hnone, rfl⟩⟩ := sweepStep_cases hstep
    · obtain ⟨hmem, hfits, -⟩ := firstBlock_eq_some hblock
      have hle := (left_sweep hloop).sublist.length_le
      have hblock := hpos block hmem
      simp only [length_without hfits] at hle
      omega
    · rcases hplace.lt_or_eq with hafter | rfl
      · exact ih hsame hafter hlt
      · exact hnone

/-- Then no single element can be left out. -/
theorem test_eraseIdx_eq_false (hpos : ∀ block ∈ blocks, 0 < block) (hone : 1 ∈ blocks)
    (h : Loop (sweepStep test blocks) (l, 0) t) (hsame : t.1.length = l.length) (hlong : 1 < l.length)
    (hplace : place < l.length) : test (l.eraseIdx place) = false := by
  have hnone := firstBlock_eq_none hpos h hsame (Nat.zero_le place) hplace
  have hkept := List.find?_eq_none.1 hnone 1 hone
  rw [decide_eq_true_eq, without_one] at hkept
  have hne : (l.eraseIdx place).isEmpty = false := by
    rw [List.isEmpty_eq_false_iff, ← List.length_pos_iff_ne_nil, List.length_eraseIdx_of_lt hplace]
    omega
  exact eq_false_of_ne_true fun htest => hkept ⟨hplace, hne, htest⟩

end SemantiST.Lib
