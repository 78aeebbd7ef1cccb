import Mathlib.Data.List.Forall2

/-!
# Lists read element by element

`mapM` in `Option`: it gives a list exactly where every element gives a value.
-/

namespace SemantiST.Lib

variable {α β : Type} {f : α → Option β} {l : List α} {l' : List β}

theorem mapM_eq_some_iff : l.mapM f = some l' ↔ List.Forall₂ (fun a b => f a = some b) l l' := by
  induction l generalizing l' with
  | nil =>
    rw [List.mapM_nil, List.forall₂_nil_left_iff]
    exact ⟨fun h => (Option.some.inj h).symm, fun h => congrArg some h.symm⟩
  | cons a l ih =>
    rw [List.mapM_cons, List.forall₂_cons_left_iff]
    constructor
    · intro h
      obtain ⟨b, hb, h⟩ := Option.bind_eq_some_iff.1 h
      obtain ⟨rest, hrest, h⟩ := Option.bind_eq_some_iff.1 h
      exact ⟨b, rest, hb, ih.1 hrest, (Option.some.inj h).symm⟩
    · rintro ⟨b, rest, hb, hrest, rfl⟩
      rw [hb, ih.2 hrest]
      rfl

theorem mapM_isSome (h : ∀ a ∈ l, (f a).isSome = true) : ∃ l', l.mapM f = some l' := by
  induction l with
  | nil => exact ⟨[], rfl⟩
  | cons a l ih =>
    obtain ⟨b, hb⟩ := Option.isSome_iff_exists.1 (h a List.mem_cons_self)
    obtain ⟨l', hl'⟩ := ih fun c hc => h c (List.mem_cons_of_mem a hc)
    exact ⟨b :: l', mapM_eq_some_iff.2 (.cons hb (mapM_eq_some_iff.1 hl'))⟩

/-- What gives an element of the result. -/
theorem mem_of_mapM (h : l.mapM f = some l') {b : β} (hb : b ∈ l') : ∃ a ∈ l, f a = some b := by
  replace h := mapM_eq_some_iff.1 h
  induction h with
  | nil => exact nomatch hb
  | cons hf _ ih =>
    rcases List.mem_cons.1 hb with rfl | hb
    · exact ⟨_, List.mem_cons_self, hf⟩
    · obtain ⟨a, ha, hfa⟩ := ih hb
      exact ⟨a, List.mem_cons_of_mem _ ha, hfa⟩

/-- What an element gives. -/
theorem exists_of_mapM (h : l.mapM f = some l') {a : α} (ha : a ∈ l) : ∃ b ∈ l', f a = some b := by
  replace h := mapM_eq_some_iff.1 h
  induction h with
  | nil => exact nomatch ha
  | cons hf _ ih =>
    rcases List.mem_cons.1 ha with rfl | ha
    · exact ⟨_, List.mem_cons_self, hf⟩
    · obtain ⟨b, hb, hfb⟩ := ih ha
      exact ⟨b, List.mem_cons_of_mem _ hb, hfb⟩

theorem mapM_eq_none_iff : l.mapM f = none ↔ ∃ a ∈ l, f a = none := by
  constructor
  · intro h
    by_contra hall
    push Not at hall
    obtain ⟨l', hl'⟩ := mapM_isSome fun a ha => Option.isSome_iff_ne_none.2 (hall a ha)
    rw [hl'] at h
    cases h
  · rintro ⟨a, ha, hnone⟩
    cases hrun : l.mapM f with
    | none => rfl
    | some l' =>
      obtain ⟨b, -, hb⟩ := exists_of_mapM hrun ha
      rw [hnone] at hb
      cases hb

theorem map_eq_of_mapM {γ : Type} {g : β → γ} {k : α → γ} (h : l.mapM f = some l')
    (hf : ∀ a b, f a = some b → g b = k a) : l'.map g = l.map k := by
  replace h := mapM_eq_some_iff.1 h
  induction h with
  | nil => rfl
  | cons hread _ ih => rw [List.map_cons, List.map_cons, ih, hf _ _ hread]

theorem mapM_length (h : l.mapM f = some l') : l'.length = l.length :=
  (mapM_eq_some_iff.1 h).length_eq.symm

end SemantiST.Lib
