import Mathlib.Data.List.Basic

/-!
# Runs over a list of inputs

A run is a left fold.  `Along f P s l` says that every step of it meets `P`, a relation between the
state before the step and the input.
-/

namespace SemantiST.Lib

variable {σ α : Type} {f : σ → α → σ} {P Q : σ → α → Prop} {I : σ → Prop} {s : σ} {a : α} {l : List α}

def Along (f : σ → α → σ) (P : σ → α → Prop) (s : σ) (l : List α) : Prop :=
  ∀ before a after, l = before ++ a :: after → P (before.foldl f s) a

theorem along_nil : Along f P s [] := by
  intro before a after h
  cases before with
  | nil => cases h
  | cons b before => cases h

theorem along_cons : Along f P s (a :: l) ↔ P s a ∧ Along f P (f s a) l := by
  constructor
  · intro h
    refine ⟨h [] a l rfl, ?_⟩
    rintro before b after rfl
    exact h (a :: before) b after rfl
  · rintro ⟨ha, hl⟩ before b after h
    cases before with
    | nil =>
      cases h
      exact ha
    | cons c before =>
      rw [List.cons_append, List.cons.injEq] at h
      obtain ⟨rfl, h⟩ := h
      exact hl before b after h

/-- What every step preserves holds at the end of every run. -/
theorem foldl_invariant (hstep : ∀ s a, a ∈ l → I s → I (f s a)) (hs : I s) : I (l.foldl f s) := by
  induction l generalizing s with
  | nil => exact hs
  | cons a l ih =>
    exact ih (fun s b hb => hstep s b (List.mem_cons_of_mem _ hb)) (hstep s a List.mem_cons_self hs)

/-- **What holds after a step precisely where it held before and the step meets `P` holds at the end
precisely where it held at the start and all steps meet `P`.** -/
theorem foldl_iff_along (J : σ → Prop) (hJ : ∀ s a, J s → J (f s a))
    (hstep : ∀ s a, J s → (I (f s a) ↔ I s ∧ P s a)) (hs : J s) : I (l.foldl f s) ↔ I s ∧ Along f P s l := by
  induction l generalizing s with
  | nil => exact (and_iff_left along_nil).symm
  | cons a l ih => rw [List.foldl_cons, ih (hJ s a hs), hstep s a hs, along_cons, and_assoc]

end SemantiST.Lib
