import Mathlib.Data.Nat.Notation

/-!
# Folds that can fail

Rules for `List.foldlM` in `Except`: how it splits, and what every step preserves.
-/

namespace SemantiST.Lib

variable {α β ε : Type} {f : β → α → Except ε β} {a : α} {l l' : List α} {b c : β}

theorem bind_eq_ok {α β : Type} {x : Except ε α} {g : α → Except ε β} {c : β} :
    (x >>= g) = .ok c ↔ ∃ a, x = .ok a ∧ g a = .ok c := by
  cases x with
  | error e => simp [bind, Except.bind]
  | ok a => simp [bind, Except.bind]

theorem ite_error_eq_ok {α : Type} {p : Prop} [Decidable p] {e : ε} {x : Except ε α} {y : α} :
    (if p then .error e else x) = .ok y ↔ ¬p ∧ x = .ok y := by
  by_cases h : p <;> simp [h]

theorem toOption_eq_some {α : Type} {x : Except ε α} {y : α} :
    x.toOption = some y ↔ x = .ok y := by
  cases x with
  | error e => simp [Except.toOption]
  | ok a => simp [Except.toOption]

theorem foldlM_cons_eq_ok :
    (a :: l).foldlM f b = .ok c ↔ ∃ b', f b a = .ok b' ∧ l.foldlM f b' = .ok c := by
  rw [List.foldlM_cons, bind_eq_ok]

theorem foldlM_nil_eq_ok : ([] : List α).foldlM f b = .ok c ↔ b = c := by
  simp [pure, Except.pure]

theorem foldlM_append_eq_ok :
    (l ++ l').foldlM f b = .ok c ↔ ∃ b', l.foldlM f b = .ok b' ∧ l'.foldlM f b' = .ok c := by
  rw [List.foldlM_append, bind_eq_ok]

/-- A loop over a list succeeds when every step does. -/
theorem forM_eq_ok_iff {f : α → Except ε Unit} : l.forM f = .ok () ↔ ∀ a ∈ l, f a = .ok () := by
  induction l with
  | nil => simp [pure, Except.pure]
  | cons a l ih =>
    have hcons : (a :: l).forM f = (f a >>= fun _ => l.forM f) := rfl
    rw [hcons, bind_eq_ok, List.forall_mem_cons, ← ih]
    exact ⟨fun ⟨_, ha, hl⟩ => ⟨ha, hl⟩, fun ⟨ha, hl⟩ => ⟨_, ha, hl⟩⟩

/-- What every successful step preserves holds at the end. -/
theorem foldlM_invariant {P : β → Prop} (h : l.foldlM f b = .ok c)
    (hstep : ∀ a ∈ l, ∀ b b', P b → f b a = .ok b' → P b') (hb : P b) : P c := by
  induction l generalizing b with
  | nil =>
    obtain rfl := foldlM_nil_eq_ok.1 h
    exact hb
  | cons a l ih =>
    obtain ⟨b', hab, hl⟩ := foldlM_cons_eq_ok.1 h
    exact ih hl (fun a' ha' => hstep a' (List.mem_cons_of_mem _ ha'))
      (hstep a List.mem_cons_self b b' hb hab)

end SemantiST.Lib
