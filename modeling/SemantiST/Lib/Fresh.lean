import Mathlib.Data.List.Nodup
import Mathlib.Data.List.Perm.Subperm

/-!
# Free names

The first of infinitely many candidates that is not taken.
-/

namespace SemantiST.Lib

variable {α : Type*} [DecidableEq α] (taken : List α) (candidate : ℕ → α)

/-- The first index from `n` on whose candidate is not taken, among so many. -/
def firstFree : ℕ → ℕ → ℕ
  | 0, n => n
  | fuel + 1, n => if candidate n ∈ taken then firstFree fuel (n + 1) else n

variable {taken candidate}

theorem firstFree_spec (fuel n : ℕ) : candidate (firstFree taken candidate fuel n) ∉ taken ∨
    (firstFree taken candidate fuel n = n + fuel ∧ ∀ i < fuel, candidate (n + i) ∈ taken) := by
  induction fuel generalizing n with
  | zero => exact .inr ⟨rfl, fun i hi => absurd hi (Nat.not_lt_zero i)⟩
  | succ fuel ih =>
    rw [firstFree]
    split
    · rename_i hn
      rcases ih (n + 1) with h | ⟨heq, h⟩
      · exact .inl h
      · refine .inr ⟨by omega, fun i hi => ?_⟩
        cases i with
        | zero => exact hn
        | succ i =>
          have hi := h i (by omega)
          rwa [Nat.add_right_comm] at hi
    · rename_i hn
      exact .inl hn

/-- **There is a free candidate** among one more than are taken. -/
theorem firstFree_not_mem (hinjective : Function.Injective candidate) (n : ℕ) :
    candidate (firstFree taken candidate taken.length n) ∉ taken := by
  rcases @firstFree_spec α _ taken candidate taken.length n with h | ⟨heq, h⟩
  · exact h
  intro hmem
  rw [heq] at hmem
  -- otherwise more names would be taken than there are
  have hnodup : ((List.range (taken.length + 1)).map fun i => candidate (n + i)).Nodup :=
    List.nodup_range.map fun i j hij => Nat.add_left_cancel (hinjective hij)
  have hsub : ((List.range (taken.length + 1)).map fun i => candidate (n + i)) ⊆ taken := by
    intro a ha
    obtain ⟨i, hi, rfl⟩ := List.mem_map.1 ha
    rcases Nat.lt_succ_iff_lt_or_eq.1 (List.mem_range.1 hi) with hlt | rfl
    · exact h i hlt
    · exact hmem
  have hlength := (hnodup.subperm hsub).length_le
  rw [List.length_map, List.length_range] at hlength
  omega

end SemantiST.Lib
