import SemantiST.Lib.Tiles

/-!
# Replacing many spans

Spans that stand one after the other, each with what replaces it.  Replaced one by one from the end
backwards, they give the list in which all are replaced at once (`foldr_replaceSpan`): at every position
stands what was there, unless a span takes it out, after what the spans put there (`substitute_eq_together`).
-/

namespace SemantiST.Lib

variable {α : Type*}

/-- A span with its replacement. -/
structure Replacement (α : Type*) where
  start : ℕ
  stop : ℕ
  new : List α

/-- A list that starts at a position, with all spans replaced at once. -/
def substitute : ℕ → List (Replacement α) → List α → List α
  | _, [], l => l
  | position, span :: spans, l =>
    l.take (span.start - position) ++ span.new ++ substitute span.stop spans (l.drop (span.stop - position))

/-- The spans stand one after the other between two positions. -/
structure Ascending (position stop : ℕ) (spans : List (Replacement α)) : Prop where
  pairwise : spans.Pairwise fun span span' => span.stop ≤ span'.start
  le : ∀ span ∈ spans, span.start ≤ span.stop
  within : ∀ span ∈ spans, position ≤ span.start ∧ span.stop ≤ stop

theorem Ascending.cons {position stop : ℕ} {span : Replacement α} {spans : List (Replacement α)}
    (h : Ascending position stop (span :: spans)) : Ascending span.stop stop spans where
  pairwise := (List.pairwise_cons.1 h.pairwise).2
  le span' hspan := h.le span' (List.mem_cons_of_mem _ hspan)
  within span' hspan := ⟨(List.pairwise_cons.1 h.pairwise).1 span' hspan, (h.within span' (List.mem_cons_of_mem _ hspan)).2⟩

/-- **From the end backwards.**  What stands before the position is left alone. -/
theorem foldr_replaceSpan {spans : List (Replacement α)} {before l : List α}
    (h : Ascending before.length (before.length + l.length) spans) :
    spans.foldr (fun span l => replaceSpan span.start span.stop span.new l) (before ++ l) =
      before ++ substitute before.length spans l := by
  induction spans generalizing before l with
  | nil => rfl
  | cons span spans ih =>
    have hle := h.le span List.mem_cons_self
    obtain ⟨hfrom, hto⟩ := h.within span List.mem_cons_self
    have hlength : (before ++ l.take (span.stop - before.length)).length = span.stop := by
      rw [List.length_append, List.length_take]
      omega
    have hrest := @ih (before ++ l.take (span.stop - before.length)) (l.drop (span.stop - before.length)) (by
      rw [hlength, List.length_drop]
      have htotal : span.stop + (l.length - (span.stop - before.length)) = before.length + l.length := by omega
      rw [htotal]
      exact h.cons)
    rw [List.append_assoc, List.take_append_drop, hlength] at hrest
    rw [List.foldr_cons, hrest, replaceSpan, List.drop_left' hlength, substitute]
    have htake : (before ++ l.take (span.stop - before.length) ++
        substitute span.stop spans (l.drop (span.stop - before.length))).take span.start =
          before ++ l.take (span.start - before.length) := by
      rw [List.take_append_of_le_length (by rw [hlength]; exact hle), List.take_append, List.take_take,
        List.take_of_length_le hfrom]
      congr 2
      omega
    rw [htake]
    simp only [List.append_assoc]

/-! ## All at once -/

/-- What the spans put at a position; an insertion comes before the replacement of what stands there. -/
def putAt (spans : List (Replacement α)) (i : ℕ) : List α :=
  (spans.filter fun span => span.start = i ∧ span.stop = i).flatMap Replacement.new ++
    (spans.filter fun span => span.start = i ∧ span.stop ≠ i).flatMap Replacement.new

/-- A span takes out what stands at a position. -/
def takenAt (spans : List (Replacement α)) (i : ℕ) : Bool := spans.any fun span => span.start ≤ i && i < span.stop

/-- The list from a position on, changed at every position in its own coordinates. -/
def together (spans : List (Replacement α)) : ℕ → List α → List α
  | i, [] => putAt spans i
  | i, a :: l => putAt spans i ++ (if takenAt spans i then [] else [a]) ++ together spans (i + 1) l

variable {spans spans' : List (Replacement α)} {span : Replacement α} {position stop i : ℕ}

theorem putAt_of_lt (h : ∀ span ∈ spans, i < span.start) : putAt spans i = [] := by
  have hfilter (p : Replacement α → Bool) (hp : ∀ span, p span = true → span.start = i) : spans.filter p = [] := by
    rw [List.filter_eq_nil_iff]
    intro span hspan hstart
    have := h span hspan
    have := hp span hstart
    omega
  rw [putAt, hfilter _ fun span hspan => (of_decide_eq_true hspan).1,
    hfilter _ fun span hspan => (of_decide_eq_true hspan).1]
  rfl

theorem putAt_cons_of_ne (h : span.start ≠ i) : putAt (span :: spans) i = putAt spans i := by
  simp [putAt, h]

theorem takenAt_cons (span : Replacement α) (spans : List (Replacement α)) (i : ℕ) :
    takenAt (span :: spans) i = ((span.start ≤ i && i < span.stop) || takenAt spans i) := rfl

theorem takenAt_of_lt (h : ∀ span ∈ spans, i < span.start) : takenAt spans i = false := by
  rw [takenAt, List.any_eq_false]
  intro span hspan
  have := h span hspan
  simp
  omega

/-- Without a span, nothing changes. -/
theorem together_before (k : ℕ) (l : List α) (h : ∀ span ∈ spans, position + k ≤ span.start) (hk : k ≤ l.length) :
    together spans position l = l.take k ++ together spans (position + k) (l.drop k) := by
  induction k generalizing position l with
  | zero => rfl
  | succ k ih =>
    cases l with
    | nil => cases hk
    | cons a l =>
      have hlt : ∀ span ∈ spans, position < span.start := fun span hspan => by
        have := h span hspan
        omega
      rw [together, putAt_of_lt hlt, takenAt_of_lt hlt, ih l (fun span hspan => by
        have := h span hspan
        omega) (Nat.le_of_succ_le_succ hk), Nat.add_assoc, Nat.add_comm 1 k]
      rfl

/-- What a first span takes out. -/
theorem together_inside (k : ℕ) (l : List α) (hspan : span.start < i) (hstop : span.stop = i + k)
    (h : ∀ span' ∈ spans, span.stop ≤ span'.start) (hk : k ≤ l.length) :
    together (span :: spans) i l = together (span :: spans) span.stop (l.drop k) := by
  induction k generalizing i l with
  | zero => rw [hstop]; rfl
  | succ k ih =>
    cases l with
    | nil => cases hk
    | cons a l =>
      have hput : putAt (span :: spans) i = [] := by
        rw [putAt_cons_of_ne (by omega)]
        exact putAt_of_lt fun span' hspan' => by
          have := h span' hspan'
          omega
      have htaken : takenAt (span :: spans) i = true := by
        rw [takenAt_cons]
        simp
        omega
      rw [together, hput, htaken, if_pos rfl, List.drop_succ_cons]
      exact ih l (by omega) (by omega) (Nat.le_of_succ_le_succ hk)

/-- A span that ends before a position is forgotten there. -/
theorem together_after (l : List α) (hstart : span.start < i) (hstop : span.stop ≤ i) :
    together (span :: spans) i l = together spans i l := by
  induction l generalizing i with
  | nil => rw [together, together, putAt_cons_of_ne (Nat.ne_of_lt hstart)]
  | cons a l ih =>
    have htaken : takenAt (span :: spans) i = takenAt spans i := by
      rw [takenAt_cons]
      simp
      omega
    rw [together, together, putAt_cons_of_ne (Nat.ne_of_lt hstart), htaken, ih (by omega) (by omega)]

/-- **All at once** is one after the other. -/
theorem substitute_eq_together {l : List α} (h : Ascending position (position + l.length) spans) :
    substitute position spans l = together spans position l := by
  induction spans generalizing position l with
  | nil =>
    have hsame := @together_before α [] position l.length l (by simp) (Nat.le_refl _)
    rw [List.drop_length, List.take_length] at hsame
    rw [hsame]
    exact (List.append_nil l).symm
  | cons span spans ih =>
    have hle := h.le span List.mem_cons_self
    obtain ⟨hfrom, hto⟩ := h.within span List.mem_cons_self
    have hafter : ∀ span' ∈ spans, span.stop ≤ span'.start := (List.pairwise_cons.1 h.pairwise).1
    have hrest := @ih span.stop (l.drop (span.stop - position)) (by
      rw [List.length_drop]
      have htotal : span.stop + (l.length - (span.stop - position)) = position + l.length := by omega
      rw [htotal]
      exact h.cons)
    have hbefore := @together_before α (span :: spans) position (span.start - position) l (fun span' hspan' => by
      rcases List.mem_cons.1 hspan' with rfl | hspan'
      · omega
      · have := hafter span' hspan'
        omega) (by omega)
    rw [Nat.add_sub_cancel' hfrom] at hbefore
    rw [substitute, hrest, hbefore, List.append_assoc]
    congr 1
    have hdrop : l.drop (span.stop - position) = (l.drop (span.start - position)).drop (span.stop - span.start) := by
      rw [List.drop_drop]
      congr 1
      omega
    have hlength : span.stop - span.start ≤ (l.drop (span.start - position)).length := by
      rw [List.length_drop]
      omega
    rw [hdrop]
    generalize l.drop (span.start - position) = l at hlength
    rcases Nat.eq_or_lt_of_le hle with heq | hlt
    · -- an insertion
      have hput : putAt (span :: spans) span.start = span.new ++ putAt spans span.start := by
        simp [putAt, ← heq]
      have htaken : takenAt (span :: spans) span.start = takenAt spans span.start := by
        rw [takenAt_cons, ← heq]
        simp
      rw [← heq, Nat.sub_self, List.drop_zero]
      cases l with
      | nil => rw [together, together, hput]
      | cons a l =>
        rw [together, together, hput, htaken, together_after l (Nat.lt_succ_self _) (by omega)]
        simp only [List.append_assoc]
    · -- a replacement
      have hput : putAt (span :: spans) span.start = span.new := by
        have hnone := @putAt_of_lt α spans span.start fun span' hspan' => by
          have := hafter span' hspan'
          omega
        rw [putAt, List.append_eq_nil_iff] at hnone
        have hne : span.stop ≠ span.start := by omega
        rw [putAt, List.filter_cons_of_neg (by simp [hne]), List.filter_cons_of_pos (by simp [hne]),
          List.flatMap_cons, hnone.1, hnone.2, List.nil_append, List.append_nil]
      have htaken : takenAt (span :: spans) span.start = true := by
        rw [takenAt_cons]
        simp [hlt]
      cases l with
      | nil =>
        rw [List.length_nil] at hlength
        omega
      | cons a l =>
        have hinside := @together_inside α spans span (span.start + 1) (span.stop - span.start - 1) l (by omega)
          (by omega) hafter (by rw [List.length_cons] at hlength; omega)
        rw [together, hput, htaken, if_pos rfl, List.append_nil, hinside, together_after _ hlt (Nat.le_refl _)]
        have hsub : span.stop - span.start = (span.stop - span.start - 1) + 1 := by omega
        rw [hsub, List.drop_succ_cons, ← hsub]

/-- No two spans share a character or are put at one place. -/
def Replacement.Apart (span span' : Replacement α) : Prop :=
  (span.stop ≤ span'.start ∨ span'.stop ≤ span.start) ∧
    ¬(span.start = span.stop ∧ span'.start = span'.stop ∧ span.start = span'.start)

theorem eq_of_perm_of_pairwise {β : Type*} {R : β → β → Prop} {l l' : List β} (hperm : l.Perm l')
    (h : l.Pairwise R) (hnot : ∀ a ∈ l, ∀ b ∈ l, ¬R a b) : l = l' := by
  cases l with
  | nil => exact (List.nil_perm.1 hperm).symm
  | cons a l =>
    cases l with
    | nil => exact List.singleton_perm.1 hperm
    | cons b l =>
      have hrel := (List.pairwise_cons.1 h).1 b List.mem_cons_self
      exact absurd hrel (hnot a List.mem_cons_self b (by simp))

/-- The order in which spans that stand apart are listed does not matter. -/
theorem together_perm (hperm : spans.Perm spans') (hapart : spans.Pairwise Replacement.Apart)
    (hle : ∀ span ∈ spans, span.start ≤ span.stop) (l : List α) :
    together spans i l = together spans' i l := by
  have hput (j : ℕ) : putAt spans j = putAt spans' j := by
    have hfilter (p : Replacement α → Bool)
        (hp : ∀ span ∈ spans.filter p, ∀ span' ∈ spans.filter p, ¬span.Apart span') :
        spans.filter p = spans'.filter p :=
      eq_of_perm_of_pairwise (hperm.filter p) (hapart.sublist List.filter_sublist) hp
    rw [putAt, putAt, hfilter, hfilter]
    · intro span hspan span' hspan' hboth
      obtain ⟨hmem, hp⟩ := List.mem_filter.1 hspan
      obtain ⟨hmem', hp'⟩ := List.mem_filter.1 hspan'
      have hplace := of_decide_eq_true hp
      have hplace' := of_decide_eq_true hp'
      have := hle span hmem
      have := hle span' hmem'
      have := hboth.1
      omega
    · intro span hspan span' hspan' hboth
      have hplace := of_decide_eq_true (List.mem_filter.1 hspan).2
      have hplace' := of_decide_eq_true (List.mem_filter.1 hspan').2
      exact hboth.2 ⟨by omega, by omega, by omega⟩
  have htaken (j : ℕ) : takenAt spans j = takenAt spans' j := hperm.any_eq
  induction l generalizing i with
  | nil => exact hput i
  | cons a l ih => rw [together, together, hput, htaken, ih]

end SemantiST.Lib
