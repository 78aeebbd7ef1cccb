import Mathlib.Data.List.Basic

/-!
# What a search tries

A search for the first element of a list that meets a predicate tries the elements up to that one.  Two
predicates that agree on what one of them tries find the same.
-/

namespace SemantiST.Lib

variable {α : Type} {p q : α → Bool} {l : List α} {a found : α}

/-- The elements of a list up to the first one that meets a predicate; all of them, if none does. -/
def tries (p : α → Bool) : List α → List α
  | [] => []
  | a :: l => a :: if p a then [] else tries p l

theorem mem_of_tries (h : a ∈ tries p l) : a ∈ l := by
  induction l with
  | nil => exact h
  | cons b l ih =>
    rw [tries] at h
    rcases List.mem_cons.1 h with rfl | h
    · exact List.mem_cons_self
    · split at h
      · cases h
      · exact List.mem_cons_of_mem _ (ih h)

/-- Predicates that agree on what one of them tries find the same. -/
theorem find?_eq_of_tries (h : ∀ a ∈ tries p l, p a = q a) : l.find? p = l.find? q := by
  induction l with
  | nil => rfl
  | cons a l ih =>
    rw [tries] at h
    obtain ⟨ha, hl⟩ := List.forall_mem_cons.1 h
    rw [List.find?_cons, List.find?_cons, ← ha]
    cases hp : p a with
    | true => rfl
    | false =>
      rw [hp] at hl
      exact ih hl

/-- What is tried and meets the predicate is what is found. -/
theorem eq_of_tries (hfound : l.find? p = some found) (h : a ∈ tries p l) (ha : p a = true) : a = found := by
  induction l with
  | nil => cases h
  | cons b l ih =>
    rw [tries] at h
    rw [List.find?_cons] at hfound
    cases hb : p b with
    | true =>
      rw [hb] at h hfound
      exact (List.mem_singleton.1 h).trans (Option.some.inj hfound)
    | false =>
      rw [hb] at h hfound
      rcases List.mem_cons.1 h with rfl | h
      · rw [hb] at ha
        cases ha
      · exact ih hfound h

/-- Predicates that find the same agree on what one of them tries. -/
theorem eq_of_find?_eq (hnodup : l.Nodup) (hp : l.find? p = some found) (hq : l.find? q = some found) :
    ∀ a ∈ tries p l, p a = q a := by
  induction l with
  | nil => cases hp
  | cons b l ih =>
    rw [List.nodup_cons] at hnodup
    rw [tries]
    rw [List.find?_cons] at hp hq
    cases hb : p b with
    | true =>
      rw [hb] at hp
      obtain rfl := Option.some.inj hp
      intro a ha
      rw [List.mem_singleton.1 ha, hb]
      cases hqb : q b with
      | true => rfl
      | false =>
        rw [hqb] at hq
        exact absurd (List.mem_of_find?_eq_some hq) hnodup.1
    | false =>
      rw [hb] at hp
      cases hqb : q b with
      | true =>
        rw [hqb] at hq
        obtain rfl := Option.some.inj hq
        exact absurd (List.mem_of_find?_eq_some hp) hnodup.1
      | false =>
        rw [hqb] at hq
        refine List.forall_mem_cons.2 ⟨hb.trans hqb.symm, ih hnodup.2 hp hq⟩

end SemantiST.Lib
