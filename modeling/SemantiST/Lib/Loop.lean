import Mathlib.Data.Nat.Notation

/-!
# Loops

A `while` loop is a function that gives the next state, or `none` where the loop is left.
`Loop step s t` says that the loop started in `s` comes to an end, in `t`; `loop` runs it for at
most a given number of rounds.
-/

namespace SemantiST.Lib

variable {σ : Type*} {step : σ → Option σ} {s s' t t' : σ}

/-- The loop that repeats `step` ends: started in `s`, it is left in `t`. -/
inductive Loop (step : σ → Option σ) : σ → σ → Prop
  | exit {s : σ} : step s = none → Loop step s s
  | next {s s' t : σ} : step s = some s' → Loop step s' t → Loop step s t

/-- At most `n` rounds of the loop. -/
def loop (step : σ → Option σ) : ℕ → σ → σ
  | 0, s => s
  | n + 1, s =>
    match step s with
    | none => s
    | some s' => loop step n s'

/-- **A loop whose rounds decrease a measure ends**, within that many rounds. -/
theorem loop_ends (measure : σ → ℕ) (hdec : ∀ s s', step s = some s' → measure s' < measure s)
    {n : ℕ} (hn : measure s ≤ n) : Loop step s (loop step n s) := by
  induction n generalizing s with
  | zero =>
    refine .exit ?_
    cases hs : step s with
    | none => rfl
    | some s' => have := hdec s s' hs; omega
  | succ n ih =>
    unfold loop
    split
    · rename_i hs
      exact .exit hs
    · rename_i s' hs
      have := hdec s s' hs
      exact .next hs (ih (by omega))

/-- A loop is left where `step` says so. -/
theorem Loop.step_eq_none (h : Loop step s t) : step t = none := by
  induction h with
  | exit h => exact h
  | next _ _ ih => exact ih

/-- A loop is left in one state only. -/
theorem Loop.unique (h : Loop step s t) (h' : Loop step s t') : t = t' := by
  induction h with
  | exit hs =>
    cases h' with
    | exit _ => rfl
    | next hs' _ => rw [hs] at hs'; cases hs'
  | next hs _ ih =>
    cases h' with
    | exit hs' => rw [hs] at hs'; cases hs'
    | next hs' h' =>
      rw [hs] at hs'
      cases hs'
      exact ih h'

/-- What every round preserves holds where the loop is left. -/
theorem Loop.invariant {P : σ → Prop} (h : Loop step s t)
    (hstep : ∀ s s', P s → step s = some s' → P s') (hs : P s) : P t := by
  induction h with
  | exit _ => exact hs
  | next hs' _ ih => exact ih (hstep _ _ hs hs')

/-- The state in which the loop is left, where that is within `n` rounds. -/
def loopWithin (step : σ → Option σ) (n : ℕ) (s : σ) : Option σ :=
  let t := loop step n s
  if (step t).isNone then some t else none

/-- **Enough rounds give the state in which the loop is left.** -/
theorem exists_loopWithin_iff : (∃ n, loopWithin step n s = some t) ↔ Loop step s t := by
  constructor
  · rintro ⟨n, h⟩
    unfold loopWithin at h
    induction n generalizing s with
    | zero =>
      obtain ⟨hnone, hst⟩ := Option.ite_none_right_eq_some.1 h
      obtain rfl : s = t := Option.some.inj hst
      exact .exit (Option.isNone_iff_eq_none.1 hnone)
    | succ n ih =>
      rw [loop] at h
      cases hs : step s with
      | none =>
        rw [hs] at h
        dsimp only at h
        obtain ⟨-, hst⟩ := Option.ite_none_right_eq_some.1 h
        obtain rfl := Option.some.inj hst
        exact .exit hs
      | some s' =>
        rw [hs] at h
        exact .next hs (ih h)
  · intro h
    induction h with
    | @exit s hs => exact ⟨0, by rw [loopWithin, loop, hs]; rfl⟩
    | next hs _ ih =>
      obtain ⟨n, hn⟩ := ih
      refine ⟨n + 1, ?_⟩
      rw [loopWithin, loop, hs]
      exact hn

end SemantiST.Lib
