import Mathlib.Data.List.Chain
import Mathlib.Data.List.Induction

/-!
# Replacement of parts of a list

`str.replace`, and what it does to neighbouring characters when it tears a pair apart.
-/

namespace SemantiST.Lib

variable {α : Type*} {a b sep c d : α} {s rest : List α} {R : α → α → Prop}

/-- No pair is in a text if no neighbours are one. -/
theorem isChain_not_pair : (s.IsChain fun x y => ¬(x = a ∧ y = b)) ↔ ¬[a, b] <:+: s := by
  rw [List.isChain_iff_forall_rel_of_append_cons_cons]
  constructor
  · rintro h ⟨left, right, rfl⟩
    exact @h a b left right (by simp) ⟨rfl, rfl⟩
  · rintro h x y left right rfl ⟨rfl, rfl⟩
    exact h ⟨left, right, by simp⟩

variable [DecidableEq α]

/-- The rest of a list, of which some characters are skipped, with every `old` replaced from the left. -/
def replaceFrom (old new : List α) : ℕ → List α → List α
  | _, [] => []
  | skip + 1, _ :: rest => replaceFrom old new skip rest
  | 0, c :: rest =>
    if old.isPrefixOf (c :: rest) then new ++ replaceFrom old new (old.length - 1) rest
    else c :: replaceFrom old new 0 rest

/-- `str.replace`, for a text `old` that is not empty. -/
def replaceAll (old new s : List α) : List α := replaceFrom old new 0 s

/-! ## Pairs -/

/-- A pair with a separator put in. -/
def tear (a sep b : α) (s : List α) : List α := replaceAll [a, b] [a, sep, b] s

@[simp] theorem tear_nil : tear a sep b [] = [] := rfl

@[simp] theorem tear_singleton : tear a sep b [c] = [c] := by
  simp [tear, replaceAll, replaceFrom]

theorem tear_pair : tear a sep b (a :: b :: rest) = a :: sep :: b :: tear a sep b rest := by
  simp [tear, replaceAll, replaceFrom]

theorem tear_cons (h : ¬(c = a ∧ d = b)) : tear a sep b (c :: d :: rest) = c :: tear a sep b (d :: rest) := by
  have hstart : ([a, b].isPrefixOf (c :: d :: rest)) = false := by
    rw [Bool.eq_false_iff]
    intro hp
    simp only [List.isPrefixOf, Bool.and_eq_true, beq_iff_eq] at hp
    exact h ⟨hp.1.symm, hp.2.1.symm⟩
  rw [tear, replaceAll, replaceFrom, if_neg (by rw [hstart]; exact Bool.false_ne_true)]
  rfl

theorem head?_tear : (tear a sep b s).head? = s.head? := by
  cases s with
  | nil => rfl
  | cons c rest =>
    cases rest with
    | nil => rw [tear_singleton]
    | cons d rest =>
      by_cases hpair : c = a ∧ d = b
      · obtain ⟨rfl, rfl⟩ := hpair
        rw [tear_pair]
        rfl
      · rw [tear_cons hpair]
        rfl

/-- **Neighbours of a torn text are neighbours of the text, other than the pair.** -/
theorem isChain_tear (hab : a ≠ b) (hleft : R a sep) (hright : R sep b) :
    (tear a sep b s).IsChain R ↔ s.IsChain fun x y => (x = a ∧ y = b) ∨ R x y := by
  induction s using List.twoStepInduction with
  | nil => simp
  | singleton c => simp
  | cons_cons c d rest ih ih' =>
    by_cases hpair : c = a ∧ d = b
    · obtain ⟨rfl, rfl⟩ := hpair
      rw [tear_pair, List.isChain_cons_cons, List.isChain_cons_cons, List.isChain_cons, List.isChain_cons_cons,
        List.isChain_cons, head?_tear, ih]
      simp [hleft, hright, hab.symm]
    · rw [tear_cons hpair, List.isChain_cons, head?_tear, ih' d, List.isChain_cons_cons]
      simp [hpair]

end SemantiST.Lib
