import Mathlib.Data.List.Destutter
import Mathlib.Data.List.Sort

/-!
# Sorting and least elements

Sorting a vector by a comparison, its least element, and sorting without repetition.
-/

namespace SemantiST.Lib

/-! ## By a comparison -/

section Compare

variable {α : Type*}

/-- `sort_by`: equal elements keep their order. -/
def sortBy (cmp : α → α → Ordering) (l : List α) : List α :=
  l.insertionSort fun a b => (cmp a b).isLE = true

variable {cmp : α → α → Ordering} {l l' : List α} {a : α}

theorem take_orderedInsert (r : α → α → Prop) [DecidableRel r] (k : ℕ) (a : α) (l : List α) :
    (l.orderedInsert r a).take k = ((l.take k).orderedInsert r a).take k := by
  induction l generalizing k with
  | nil => simp
  | cons b l ih =>
    cases k with
    | zero => simp
    | succ k =>
      rw [List.take_succ_cons, List.orderedInsert_cons, List.orderedInsert_cons]
      split
      · rw [List.take_succ_cons, List.take_succ_cons]
        cases k with
        | zero => rfl
        | succ k => rw [List.take_succ_cons, List.take_succ_cons, List.take_take, min_eq_left (by omega)]
      · rw [List.take_succ_cons, List.take_succ_cons, ih]

theorem pairwise_sortBy [Std.TransCmp cmp] (l : List α) :
    (sortBy cmp l).Pairwise fun a b => (cmp a b).isLE = true := by
  have htotal : Std.Total fun a b : α => (cmp a b).isLE = true := ⟨fun a b => by
    rw [show cmp b a = (cmp a b).swap from Std.OrientedCmp.eq_swap]
    cases cmp a b <;> simp⟩
  have htrans : IsTrans α fun a b => (cmp a b).isLE = true :=
    ⟨fun a b c hab hbc => Std.TransCmp.isLE_trans hab hbc⟩
  exact List.pairwise_insertionSort _ l

/-- Elements that the comparison tells apart have one order. -/
theorem sortBy_congr [Std.TransCmp cmp] (h : l.Perm l')
    (heq : ∀ a ∈ l, ∀ b ∈ l, cmp a b = .eq → a = b) : sortBy cmp l = sortBy cmp l' := by
  have hl : (sortBy cmp l).Perm l := List.perm_insertionSort _ l
  have hl' : (sortBy cmp l').Perm l' := List.perm_insertionSort _ l'
  refine List.Perm.eq_of_pairwise (fun a b ha hb hab hba => ?_) (pairwise_sortBy l) (pairwise_sortBy l')
    (hl.trans (h.trans hl'.symm))
  refine heq a (hl.mem_iff.1 ha) b (h.mem_iff.2 (hl'.mem_iff.1 hb)) ?_
  rw [show cmp b a = (cmp a b).swap from Std.OrientedCmp.eq_swap] at hba
  cases hcmp : cmp a b with
  | lt =>
    rw [hcmp] at hba
    cases hba
  | eq => rfl
  | gt =>
    rw [hcmp] at hab
    cases hab

/-- The least elements of a list with one more: what was dropped before does not matter. -/
theorem take_sortBy_concat [Std.TransCmp cmp] (k : ℕ)
    (heq : ∀ b ∈ l ++ [a], ∀ c ∈ l ++ [a], cmp b c = .eq → b = c) :
    (sortBy cmp ((sortBy cmp l).take k ++ [a])).take k = (sortBy cmp (l ++ [a])).take k := by
  have hmem : ∀ b, b ∈ (sortBy cmp l).take k ++ [a] → b ∈ l ++ [a] := fun b hb => by
    rcases List.mem_append.1 hb with hb | hb
    · exact List.mem_append_left _ ((List.mem_insertionSort _).1 (List.mem_of_mem_take hb))
    · exact List.mem_append_right _ hb
  have hsorted : ((sortBy cmp l).take k).Pairwise fun a b => (cmp a b).isLE = true :=
    (pairwise_sortBy l).sublist (List.take_sublist _ _)
  calc (sortBy cmp ((sortBy cmp l).take k ++ [a])).take k
      = (sortBy cmp (a :: (sortBy cmp l).take k)).take k := by
        rw [sortBy_congr (List.perm_append_singleton a _) fun b hb c hc =>
          heq b (hmem b hb) c (hmem c hc)]
    _ = (((sortBy cmp l).take k).orderedInsert (fun a b => (cmp a b).isLE = true) a).take k := by
        rw [sortBy, List.insertionSort_cons, hsorted.insertionSort_eq]
    _ = ((sortBy cmp l).orderedInsert (fun a b => (cmp a b).isLE = true) a).take k :=
        (take_orderedInsert _ k a _).symm
    _ = (sortBy cmp (l ++ [a])).take k := by
        rw [sortBy_congr (List.perm_append_singleton a l) heq]
        rfl

/-- `min_by`: the first of the least elements. -/
def minBy (cmp : α → α → Ordering) : List α → Option α
  | [] => none
  | a :: l => some (l.foldl (fun best b => if cmp best b = .gt then b else best) a)

theorem minBy_congr {cmp' : α → α → Ordering} (h : ∀ a ∈ l, ∀ b ∈ l, cmp a b = cmp' a b) :
    minBy cmp l = minBy cmp' l := by
  cases l with
  | nil => rfl
  | cons a l =>
    refine congrArg some (?_ : l.foldl _ a = l.foldl _ a)
    induction l generalizing a with
    | nil => rfl
    | cons b l ih =>
      have hab := h a List.mem_cons_self b (List.mem_cons_of_mem a List.mem_cons_self)
      rw [List.foldl_cons, List.foldl_cons, hab]
      split
      · exact ih b fun c hc d hd => h c (List.mem_cons_of_mem a hc) d (List.mem_cons_of_mem a hd)
      · have hsub : ∀ c ∈ a :: l, c ∈ a :: b :: l := fun c hc =>
          (List.cons_subset_cons a (List.subset_cons_self b l)) hc
        exact ih a fun c hc d hd => h c (hsub c hc) d (hsub d hd)

theorem mem_of_minBy (h : minBy cmp l = some a) : a ∈ l := by
  cases l with
  | nil => cases h
  | cons b l =>
    rw [← Option.some.inj h]
    refine List.foldlRecOn (motive := fun best => best ∈ b :: l) l _ List.mem_cons_self ?_
    intro best hbest c hc
    split
    · exact List.mem_cons_of_mem b hc
    · exact hbest

/-- `max_by_key`: the last of the greatest elements. -/
def maxByKey {β : Type*} [LT β] [DecidableLT β] (key : α → β) : List α → Option α
  | [] => none
  | a :: l => some (l.foldl (fun best b => if key b < key best then best else b) a)

theorem mem_of_maxByKey {β : Type*} [LT β] [DecidableLT β] {key : α → β} (h : maxByKey key l = some a) :
    a ∈ l := by
  cases l with
  | nil => cases h
  | cons b l =>
    rw [← Option.some.inj h]
    refine List.foldlRecOn (motive := fun best => best ∈ b :: l) l _ List.mem_cons_self ?_
    intro best hbest c hc
    split
    · exact hbest
    · exact List.mem_cons_of_mem b hc

end Compare

/-! ## Without repetition -/

variable {α : Type*} [LinearOrder α] {l l' : List α} {a : α}

/-- `sort_unstable` and then `dedup`. -/
def sortDedup (l : List α) : List α := (l.insertionSort (· ≤ ·)).destutter (· ≠ ·)

theorem mem_destutter_ne (l : List α) : a ∈ l.destutter (· ≠ ·) ↔ a ∈ l := by
  cases l with
  | nil => simp
  | cons b l =>
    rw [List.destutter_cons']
    induction l generalizing b with
    | nil => simp
    | cons c l ih =>
      by_cases h : b = c
      · subst h
        rw [List.destutter'_cons_neg _ (by simp), ih]
        simp
      · rw [List.destutter'_cons_pos _ h, List.mem_cons, ih]
        simp

@[simp] theorem mem_sortDedup : a ∈ sortDedup l ↔ a ∈ l := by
  rw [sortDedup, mem_destutter_ne, List.mem_insertionSort]

theorem isChain_lt_of_le_of_ne (hle : l.IsChain (· ≤ ·)) (hne : l.IsChain (· ≠ ·)) :
    l.IsChain (· < ·) := by
  induction hne with
  | nil => exact .nil
  | singleton a => exact .singleton a
  | cons_cons hab _ ih =>
    obtain ⟨h, hrest⟩ := List.isChain_cons_cons.1 hle
    exact .cons_cons (lt_of_le_of_ne h hab) (ih hrest)

/-- The result increases strictly. -/
theorem sortDedup_pairwise (l : List α) : (sortDedup l).Pairwise (· < ·) := by
  have hle : (sortDedup l).Pairwise (· ≤ ·) :=
    (List.pairwise_insertionSort (· ≤ ·) l).sublist (List.destutter_sublist _ _)
  have hne : (sortDedup l).IsChain (· ≠ ·) := List.isChain_destutter _ _
  exact (isChain_lt_of_le_of_ne hle.isChain hne).pairwise

/-- Lists with the same members are sorted to the same list. -/
theorem sortDedup_eq_iff : sortDedup l = sortDedup l' ↔ ∀ a, a ∈ l ↔ a ∈ l' := by
  constructor
  · intro h a
    rw [← mem_sortDedup (l := l), h, mem_sortDedup]
  · intro h
    have hperm : (sortDedup l).Perm (sortDedup l') := by
      rw [List.perm_ext_iff_of_nodup ((sortDedup_pairwise l).imp ne_of_lt)
        ((sortDedup_pairwise l').imp ne_of_lt)]
      simpa using h
    exact hperm.eq_of_pairwise (fun a b _ _ hab hba => absurd hba hab.asymm) (sortDedup_pairwise l)
      (sortDedup_pairwise l')

end SemantiST.Lib
