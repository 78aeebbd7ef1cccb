import Mathlib.Data.Nat.Notation

/-!
# Random draws

Code that draws numbers from a stream.  What it returns `Always` has a property, when it has it for every stream.
-/

namespace SemantiST.Lib

universe u

variable {α β : Type}

/-- The draws that are still to come. -/
abbrev Draws := ℕ → ℕ

/-- What code gives that draws numbers. -/
abbrev Drawn (α : Type) := StateM Draws α

namespace Drawn

def draw : Drawn ℕ := fun draws => (draws 0, fun i => draws (i + 1))

/-- A number below a bound, or zero where there is none. -/
def belowOrZero (bound : ℕ) : Drawn ℕ := if bound = 0 then pure 0 else (· % bound) <$> draw

/-- A number between two numbers. -/
def between (low high : ℕ) : Drawn ℕ := (fun n => low + n % (high - low + 1)) <$> draw

/-- A coin; how often it shows which side is up to the stream. -/
def coinflip : Drawn Bool := (· % 2 = 1) <$> draw

/-- A member of a list, or a default where the list has none. -/
def choose (default : α) (choices : List α) : Drawn α := (choices.getD · default) <$> belowOrZero choices.length

/-- One result after another. -/
def repeated (code : Drawn α) : ℕ → Drawn (List α)
  | 0 => pure []
  | n + 1 => do
    let first ← code
    let rest ← repeated code n
    pure (first :: rest)

/-- What the code returns has a property, whatever is drawn. -/
def Always (P : α → Prop) (code : Drawn α) : Prop := ∀ draws, P (code draws).1

section Always

variable {P Q : α → Prop} {R : β → Prop} {code : Drawn α}

theorem always_pure {a : α} (h : P a) : Always P (pure a) := fun _ => h

theorem Always.bind {next : α → Drawn β} (h : Always P code) (hnext : ∀ a, P a → Always R (next a)) :
    Always R (code >>= next) := fun draws => hnext _ (h draws) _

/-- Code of which only the draws count. -/
theorem always_bind {next : α → Drawn β} (hnext : ∀ a, Always R (next a)) : Always R (code >>= next) :=
  fun _ => hnext _ _

theorem Always.map {f : α → β} (h : Always P code) (hf : ∀ a, P a → R (f a)) : Always R (f <$> code) :=
  fun draws => hf _ (h draws)

theorem always_map {f : α → β} (hf : ∀ a, R (f a)) : Always R (f <$> code) := fun _ => hf _

theorem always_ite {p : Prop} [Decidable p] {code' : Drawn α} (h : p → Always P code) (h' : ¬ p → Always P code') :
    Always P (if p then code else code') := by
  by_cases hp : p
  · rw [if_pos hp]
    exact h hp
  · rw [if_neg hp]
    exact h' hp

theorem always_choose {default : α} {choices : List α} (hdefault : P default) (h : ∀ a ∈ choices, P a) :
    Always P (choose default choices) := by
  apply always_map
  intro i
  rw [List.getD_eq_getElem?_getD]
  cases hi : choices[i]? with
  | none => exact hdefault
  | some a => exact h a (List.mem_of_getElem? hi)

theorem always_belowOrZero {bound : ℕ} (h : 0 < bound) : Always (· < bound) (belowOrZero bound) := by
  rw [belowOrZero, if_neg (by omega)]
  exact always_map fun n => Nat.mod_lt n h

theorem always_choose_mem {default : α} {choices : List α} (h : choices ≠ []) :
    Always (· ∈ choices) (choose default choices) := by
  refine (always_belowOrZero (List.length_pos_iff.2 h)).map fun i hi => ?_
  rw [List.getD_eq_getElem?_getD, List.getElem?_eq_getElem hi]
  exact List.getElem_mem hi

theorem Always.repeated (h : Always P code) (n : ℕ) : Always (fun l => ∀ a ∈ l, P a) (repeated code n) := by
  induction n with
  | zero => exact always_pure fun a ha => absurd ha List.not_mem_nil
  | succ n ih =>
    refine h.bind fun first hfirst => ih.bind fun rest hrest => always_pure ?_
    intro a ha
    rcases List.mem_cons.1 ha with rfl | ha
    · exact hfirst
    · exact hrest a ha

end Always

end Drawn

end SemantiST.Lib
