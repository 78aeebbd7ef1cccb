import Mathlib.Data.List.Basic

/-!
# Loops whose rounds may fail

A round of a loop gives the next state, or the loop is left, or the round raises an error, or it never comes
to an end itself.
-/

namespace SemantiST.Lib

inductive Turn (σ : Type) where
  | next (s : σ)
  | done
  | raised
  | endless

variable {σ : Type} {turn : σ → Turn σ} {s s' t : σ}

/-- The loop started in `s` is left, or a round of it raises an error. -/
inductive Ends (turn : σ → Turn σ) : σ → Prop
  | done {s : σ} : turn s = .done → Ends turn s
  | raised {s : σ} : turn s = .raised → Ends turn s
  | next {s s' : σ} : turn s = .next s' → Ends turn s' → Ends turn s

/-- A state that rounds of the loop lead to. -/
inductive Passes (turn : σ → Turn σ) (s : σ) : σ → Prop
  | start : Passes turn s s
  | next {s' t : σ} : Passes turn s s' → turn s' = .next t → Passes turn s t

/-- The state in which the loop is left, within so many rounds. -/
def finish (turn : σ → Turn σ) : ℕ → σ → Option σ
  | 0, _ => none
  | n + 1, s =>
    match turn s with
    | .next s' => finish turn n s'
    | .done => some s
    | .raised | .endless => none

/-- **A loop whose rounds end and decrease a measure ends.** -/
theorem ends_of_measure (I : σ → Prop) (measure : σ → ℕ) (hround : ∀ s, I s → turn s ≠ .endless)
    (hnext : ∀ s s', I s → turn s = .next s' → I s' ∧ measure s' < measure s) (hs : I s) : Ends turn s := by
  obtain ⟨n, hn⟩ : ∃ n, measure s < n := ⟨measure s + 1, Nat.lt_succ_self _⟩
  induction n generalizing s with
  | zero => omega
  | succ n ih =>
    cases hturn : turn s with
    | next s' =>
      obtain ⟨hs', hlt⟩ := hnext s s' hs hturn
      exact .next hturn (ih hs' (by omega))
    | done => exact .done hturn
    | raised => exact .raised hturn
    | endless => exact absurd hturn (hround s hs)

/-- **A loop that is kept in some states never ends there.** -/
theorem not_ends (I : σ → Prop) (hnext : ∀ s, I s → turn s = .endless ∨ ∃ s', turn s = .next s' ∧ I s')
    (hs : I s) : ¬Ends turn s := by
  have hcases {s : σ} (hs : I s) : turn s ≠ .done ∧ turn s ≠ .raised ∧ ∀ s', turn s = .next s' → I s' := by
    rcases hnext s hs with hturn | ⟨s', hturn, hs'⟩
    · rw [hturn]
      exact ⟨fun h => (nomatch h), fun h => (nomatch h), fun s' h => nomatch h⟩
    · rw [hturn]
      refine ⟨fun h => (nomatch h), fun h => (nomatch h), fun t h => ?_⟩
      cases h
      exact hs'
  intro h
  induction h with
  | done hturn => exact (hcases hs).1 hturn
  | raised hturn => exact (hcases hs).2.1 hturn
  | next hturn _ ih => exact ih ((hcases hs).2.2 _ hturn)

/-- What every round keeps holds in every state that is passed. -/
theorem Passes.invariant {I : σ → Prop} (h : Passes turn s t) (hs : I s)
    (hnext : ∀ s s', I s → turn s = .next s' → I s') : I t := by
  induction h with
  | start => exact hs
  | next _ hturn ih => exact hnext _ _ ih hturn

/-- What every round keeps holds where the loop is left. -/
theorem finish_invariant {I : σ → Prop} {n : ℕ} (h : finish turn n s = some t) (hs : I s)
    (hnext : ∀ s s', I s → turn s = .next s' → I s') : I t ∧ turn t = .done := by
  induction n generalizing s with
  | zero => cases h
  | succ n ih =>
    unfold finish at h
    split at h
    · rename_i s' hturn
      exact ih h (hnext s s' hs hturn)
    · rename_i hturn
      rw [← Option.some.inj h]
      exact ⟨hs, hturn⟩
    · cases h
    · cases h

/-! ## The first that is accepted -/

variable {α : Type} {accepts : α → Option Bool} {l : List α} {a : α}

/-- The first element that is accepted; `none` where asking for one raises an error. -/
def firstAccepted (accepts : α → Option Bool) : List α → Option (Option α)
  | [] => some none
  | a :: l =>
    match accepts a with
    | none => none
    | some true => some (some a)
    | some false => firstAccepted accepts l

theorem firstAccepted_some (h : firstAccepted accepts l = some (some a)) : a ∈ l ∧ accepts a = some true := by
  induction l with
  | nil => cases h
  | cons b l ih =>
    unfold firstAccepted at h
    split at h
    · cases h
    · rename_i htrue
      rw [← Option.some.inj (Option.some.inj h)]
      exact ⟨List.mem_cons_self, htrue⟩
    · exact (ih h).imp_left (List.mem_cons_of_mem b)

theorem firstAccepted_none (h : firstAccepted accepts l = some none) : ∀ a ∈ l, accepts a = some false := by
  induction l with
  | nil => exact fun a ha => nomatch ha
  | cons b l ih =>
    unfold firstAccepted at h
    split at h
    · cases h
    · cases h
    · rename_i hfalse
      intro a ha
      rcases List.mem_cons.1 ha with rfl | ha
      · exact hfalse
      · exact ih h a ha

/-- What is done with the first element that is accepted. -/
def turnTo (accepts : α → Option Bool) (candidates : List α) (otherwise : Turn α) : Turn α :=
  match firstAccepted accepts candidates with
  | none => .raised
  | some none => otherwise
  | some (some a) => .next a

theorem turnTo_next {otherwise : Turn α} (h : turnTo accepts l otherwise = .next a) :
    (a ∈ l ∧ accepts a = some true) ∨ otherwise = .next a := by
  unfold turnTo at h
  split at h
  · cases h
  · exact .inr h
  · rename_i b hfirst
    cases h
    exact .inl (firstAccepted_some hfirst)

/-- A loop is left where nothing is accepted. -/
theorem turnTo_done (h : turnTo accepts l .done = .done) : ∀ a ∈ l, accepts a = some false := by
  unfold turnTo at h
  split at h
  · cases h
  · rename_i hnone
    exact firstAccepted_none hnone
  · cases h

/-- Where the first one is accepted, it is taken. -/
theorem turnTo_head {otherwise : Turn α} (h : accepts a = some true) :
    turnTo accepts (a :: l) otherwise = .next a := by
  rw [turnTo, firstAccepted, h]

theorem turnTo_ne_endless {otherwise : Turn α} (h : otherwise ≠ .endless) :
    turnTo accepts l otherwise ≠ .endless := by
  unfold turnTo
  split
  · exact fun h => nomatch h
  · exact h
  · exact fun h => nomatch h

end SemantiST.Lib
