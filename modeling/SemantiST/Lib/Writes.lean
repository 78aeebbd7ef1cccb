import Mathlib.Data.List.Basic

/-!
# Straight-line writes

A sequence of operations that write to a store, kept with the most recent one first.  An operation
changes the variables it touches and leaves the others alone, so the value of a variable is that of
the last operation that touches it.
-/

namespace SemantiST.Lib

/-- The variables an operation touches, and the value they get in the store it finds. -/
structure Writes (Op Var Val : Type) where
  touches : Op → Var → Bool
  value : Op → (Var → Val) → Val

namespace Writes

variable {Op Var Val : Type} (W : Writes Op Var Val) {σ : Var → Val} {x : Var} {op : Op}
  {history older : List Op}

def apply (σ : Var → Val) (op : Op) : Var → Val :=
  fun x => if W.touches op x then W.value op σ else σ x

/-- The store after the operations of a history, which lists the most recent one first. -/
def after (σ : Var → Val) : List Op → Var → Val
  | [] => σ
  | op :: older => W.apply (after σ older) op

/-- The last operation that touches a variable, and what came before it. -/
def last (x : Var) : List Op → Option (Op × List Op)
  | [] => none
  | op :: older => if W.touches op x then some (op, older) else last x older

@[simp] theorem after_nil : W.after σ [] = σ := rfl

@[simp] theorem after_cons : W.after σ (op :: older) = W.apply (W.after σ older) op := rfl

theorem apply_of_touches (h : W.touches op x = true) : W.apply σ op x = W.value op σ := if_pos h

theorem apply_of_not_touches (h : W.touches op x = false) : W.apply σ op x = σ x := by
  unfold apply
  rw [h]
  rfl

/-- Operations that run in their order. -/
theorem after_reverse (σ : Var → Val) (ops : List Op) :
    W.after σ ops.reverse = ops.foldl W.apply σ := by
  rw [← List.foldr_reverse]
  induction ops.reverse with
  | nil => rfl
  | cons op older ih => rw [after_cons, ih, List.foldr_cons]

/-- **A variable that nothing touches keeps its value.** -/
theorem after_of_untouched (h : ∀ op ∈ history, W.touches op x = false) :
    W.after σ history x = σ x := by
  induction history with
  | nil => rfl
  | cons op older ih =>
    rw [after_cons, apply_of_not_touches W (h op List.mem_cons_self)]
    exact ih fun op' hop' => h op' (List.mem_cons_of_mem op hop')

/-- **A variable has the value of the last operation that touches it.** -/
theorem after_of_last (h : W.last x history = some (op, older)) :
    W.after σ history x = W.value op (W.after σ older) := by
  induction history with
  | nil => cases h
  | cons op' rest ih =>
    unfold last at h
    rw [after_cons]
    cases ht : W.touches op' x with
    | true =>
      rw [ht] at h
      cases h
      exact apply_of_touches W ht
    | false =>
      rw [ht] at h
      rw [apply_of_not_touches W ht]
      exact ih h

theorem touches_of_last (h : W.last x history = some (op, older)) : W.touches op x = true := by
  induction history with
  | nil => cases h
  | cons op' rest ih =>
    unfold last at h
    split at h
    · rename_i ht
      cases h
      exact ht
    · exact ih h

theorem untouched_of_last (h : W.last x history = none) : ∀ op ∈ history, W.touches op x = false := by
  induction history with
  | nil => simp
  | cons op' rest ih =>
    unfold last at h
    split at h
    · cases h
    · rename_i ht
      exact List.forall_mem_cons.2 ⟨Bool.not_eq_true _ ▸ ht, ih h⟩

/-- What came before the last operation is a part of the history. -/
theorem last_suffix (h : W.last x history = some (op, older)) : op :: older <:+ history := by
  induction history with
  | nil => cases h
  | cons op' rest ih =>
    unfold last at h
    split at h
    · cases h
      exact List.suffix_refl _
    · exact (ih h).trans (List.suffix_cons op' rest)

end Writes

end SemantiST.Lib
