import Mathlib.Data.List.Forall2

/-!
# Programs with a state

What holds after a program of the state monad has run, with one rule for each way programs are put
together.
-/

namespace SemantiST.Lib

variable {σ α β : Type}

/-- What holds of the result of a program and of the state it leaves. -/
def After (x : StateM σ α) (s : σ) (Q : α → σ → Prop) : Prop := Q (x.run s).1 (x.run s).2

namespace After

variable {x : StateM σ α} {f : α → StateM σ β} {s : σ} {P Q : α → σ → Prop} {R : β → σ → Prop}

theorem mono (h : After x s P) (hPQ : ∀ r s', P r s' → Q r s') : After x s Q := hPQ _ _ h

theorem bind (h : After x s P) (hf : ∀ r s', P r s' → After (f r) s' R) : After (x >>= f) s R :=
  hf _ _ h

theorem pure {r : α} (h : Q r s) : After (Pure.pure r) s Q := h

theorem get_bind {f : σ → StateM σ β} (h : After (f s) s R) : After (get >>= f) s R := h

theorem set_bind {s' : σ} {f : PUnit → StateM σ β} (h : After (f ⟨⟩) s' R) :
    After (set s' >>= f) s R := h

theorem modify {g : σ → σ} {Q : PUnit → σ → Prop} (h : Q ⟨⟩ (g s)) :
    After (modify g : StateM σ PUnit) s Q := h

theorem ite {c : Prop} [Decidable c] {y : StateM σ α} (h : c → After x s Q)
    (h' : ¬c → After y s Q) : After (if c then x else y) s Q := by
  split
  · exact h ‹c›
  · exact h' ‹¬c›

/-- What every run has, this run has. -/
theorem run (h : After x s Q) : Q (x.run s).1 (x.run s).2 := h

/-- A run ends in what it ends in. -/
theorem ran (x : StateM σ α) (s : σ) : After x s fun r s' => x.run s = (r, s') := rfl

theorem of_run {r : α} {s' : σ} (h : After x s Q) (hrun : x.run s = (r, s')) : Q r s' := by
  have h' := h.run
  rw [hrun] at h'
  exact h'

/-- A program for each element: what each leaves stays, as the state only moves forward. -/
theorem mapM {f : α → StateM σ β} {L : σ → σ → Prop} (hrefl : ∀ s, L s s)
    (htrans : ∀ s s' s'', L s s' → L s' s'' → L s s'') {P : α → β → σ → Prop}
    (hmono : ∀ a b s s', P a b s → L s s' → P a b s') {l : List α} {s : σ}
    (h : ∀ a ∈ l, ∀ s', L s s' → After (f a) s' fun b s'' => L s' s'' ∧ P a b s'') :
    After (l.mapM f) s fun r s' => L s s' ∧ List.Forall₂ (fun a b => P a b s') l r := by
  induction l generalizing s with
  | nil => exact After.pure ⟨hrefl s, .nil⟩
  | cons a l ih =>
    obtain ⟨ha, hl⟩ := List.forall_mem_cons.1 h
    rw [List.mapM_cons]
    apply After.bind (ha s (hrefl s))
    rintro b s₁ ⟨hle, hP⟩
    apply After.bind (ih fun a' ha' s' hle' => hl a' ha' s' (htrans s s₁ s' hle hle'))
    rintro bs s₂ ⟨hle', hall⟩
    exact After.pure ⟨htrans s s₁ s₂ hle hle', .cons (hmono a b s₁ s₂ hP hle') hall⟩

end After

end SemantiST.Lib
