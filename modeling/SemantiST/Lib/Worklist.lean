import Mathlib.Data.List.Basic

/-!
# Worklists

A search with a list of what is still to be looked at: each entry leads to some items, and an item that
is met for the first time may put an entry on the list.  With enough fuel, what is seen is closed.
-/

namespace SemantiST.Lib

/-- A predicate that holds less often. -/
theorem countP_lt_countP {α : Type} {p q : α → Bool} {l : List α} (hle : ∀ x ∈ l, p x = true → q x = true)
    {a : α} (ha : a ∈ l) (hp : p a = false) (hq : q a = true) : l.countP p < l.countP q := by
  obtain ⟨pre, post, rfl⟩ := List.append_of_mem ha
  have hpre := List.countP_mono_left fun x hx => hle x (List.mem_append_left (a :: post) hx)
  have hpost := List.countP_mono_left fun x hx =>
    hle x (List.mem_append_right pre (List.mem_cons_of_mem a hx))
  rw [List.countP_append, List.countP_append, List.countP_cons_of_neg (by simp [hp]),
    List.countP_cons_of_pos hq]
  omega

/-- What is seen, and what is still to be looked at. -/
structure Worklist (α β : Type) where
  seen : List α
  pending : List β

namespace Worklist

variable {α β : Type} [DecidableEq α] (next : β → List α) (push : α → Option β)

def meet (work : Worklist α β) (a : α) : Worklist α β :=
  if a ∈ work.seen then work
  else { seen := a :: work.seen, pending := (push a).toList ++ work.pending }

/-- The search, for at most so many entries. -/
def search : ℕ → Worklist α β → Worklist α β
  | 0, work => work
  | fuel + 1, ⟨seen, pending⟩ =>
    match pending with
    | [] => ⟨seen, []⟩
    | b :: pending => search fuel ((next b).foldl (meet push) ⟨seen, pending⟩)

/-- An entry is still to be looked at, or what it leads to is seen. -/
def Handled (work : Worklist α β) (b : β) : Prop := b ∈ work.pending ∨ next b ⊆ work.seen

structure Closing (work : Worklist α β) : Prop where
  handled : ∀ a ∈ work.seen, ∀ b ∈ push a, Handled next work b

/-- The number of items that are not seen. -/
def unseenCount (items : List α) (work : Worklist α β) : ℕ := items.countP fun a => a ∉ work.seen

variable {next push} {work : Worklist α β}

theorem meet_seen (a : α) : work.seen ⊆ (work.meet push a).seen ∧ a ∈ (work.meet push a).seen ∧
    work.pending ⊆ (work.meet push a).pending := by
  unfold meet
  split
  · rename_i h
    exact ⟨List.Subset.refl _, h, List.Subset.refl _⟩
  · exact ⟨List.subset_cons_self _ _, List.mem_cons_self, List.subset_append_right _ _⟩

theorem foldl_meet_seen (items : List α) : work.seen ⊆ (items.foldl (meet push) work).seen ∧
    items ⊆ (items.foldl (meet push) work).seen ∧ work.pending ⊆ (items.foldl (meet push) work).pending := by
  induction items generalizing work with
  | nil => exact ⟨List.Subset.refl _, List.nil_subset _, List.Subset.refl _⟩
  | cons a items ih =>
    obtain ⟨hseen, hmem, hpending⟩ := @meet_seen α β _ push work a
    obtain ⟨hseen', hitems, hpending'⟩ := @ih (work.meet push a)
    exact ⟨List.Subset.trans hseen hseen', List.cons_subset.2 ⟨hseen' hmem, hitems⟩,
      List.Subset.trans hpending hpending'⟩

/-- What is met puts its entry on the list. -/
theorem meet_pushed (a : α) : ∀ a' ∈ (work.meet push a).seen, a' ∈ work.seen ∨
    ∀ b ∈ push a', b ∈ (work.meet push a).pending := by
  unfold meet
  split
  · exact fun a' ha' => .inl ha'
  · intro a' ha'
    rcases List.mem_cons.1 ha' with rfl | ha'
    · exact .inr fun b hb => List.mem_append_left _ (Option.mem_toList.2 hb)
    · exact .inl ha'

theorem foldl_meet_pushed (items : List α) : ∀ a ∈ (items.foldl (meet push) work).seen, a ∈ work.seen ∨
    ∀ b ∈ push a, b ∈ (items.foldl (meet push) work).pending := by
  induction items generalizing work with
  | nil => exact fun a ha => .inl ha
  | cons item items ih =>
    intro a ha
    rcases @ih (work.meet push item) a ha with hseen | hpushed
    · rcases meet_pushed item a hseen with hseen | hpushed
      · exact .inl hseen
      · exact .inr fun b hb => (foldl_meet_seen items).2.2 (hpushed b hb)
    · exact .inr hpushed

/-- Each entry is paid for by the item that put it on the list. -/
theorem meet_count (items : List α) {a : α} (ha : a ∈ items) :
    unseenCount items (work.meet push a) + (work.meet push a).pending.length ≤
      unseenCount items work + work.pending.length := by
  unfold meet
  split
  · exact Nat.le_refl _
  · rename_i hunseen
    have hlt : unseenCount items ⟨a :: work.seen, (push a).toList ++ work.pending⟩ + 1 ≤
        unseenCount items work := by
      refine countP_lt_countP (fun x _ hx => ?_) ha (by simp) (by simpa using hunseen)
      rw [decide_eq_true_eq] at hx ⊢
      exact fun hmem => hx (List.mem_cons_of_mem _ hmem)
    have hlength : (push a).toList.length ≤ 1 := by cases push a <;> simp
    rw [List.length_append]
    omega

theorem foldl_meet_count {items : List α} (new : List α) (hnew : new ⊆ items) :
    unseenCount items (new.foldl (meet push) work) + (new.foldl (meet push) work).pending.length ≤
      unseenCount items work + work.pending.length := by
  induction new generalizing work with
  | nil => exact Nat.le_refl _
  | cons a new ih =>
    obtain ⟨ha, hrest⟩ := List.cons_subset.1 hnew
    exact Nat.le_trans (ih hrest) (meet_count items ha)

theorem search_seen (fuel : ℕ) (work : Worklist α β) : work.seen ⊆ (search next push fuel work).seen := by
  induction fuel generalizing work with
  | zero => exact List.Subset.refl _
  | succ fuel ih =>
    rcases work with ⟨seen, _ | ⟨b, pending⟩⟩
    · exact List.Subset.refl _
    · exact List.Subset.trans (@foldl_meet_seen α β _ push ⟨seen, pending⟩ (next b)).1 (ih _)

/-- **What a search sees is closed**: of the entries it starts with, and of all that items put on the
list. -/
theorem search_closed {items : List α} (hitems : ∀ b, next b ⊆ items) (fuel : ℕ)
    (hfuel : unseenCount items work + work.pending.length ≤ fuel) (hclosing : Closing next push work) :
    (∀ b ∈ work.pending, next b ⊆ (search next push fuel work).seen) ∧
      ∀ a ∈ (search next push fuel work).seen, ∀ b ∈ push a, next b ⊆ (search next push fuel work).seen := by
  induction fuel generalizing work with
  | zero =>
    have hpending : work.pending = [] := List.eq_nil_of_length_eq_zero (by omega)
    refine ⟨by simp [hpending], fun a ha b hb => ?_⟩
    rcases hclosing.handled a ha b hb with hmem | hsubset
    · rw [hpending] at hmem
      cases hmem
    · exact hsubset
  | succ fuel ih =>
    rcases work with ⟨seen, _ | ⟨b, pending⟩⟩
    · refine ⟨by simp, fun a ha b hb => ?_⟩
      rcases hclosing.handled a ha b hb with hmem | hsubset
      · cases hmem
      · exact hsubset
    · have hcount := @foldl_meet_count α β _ push ⟨seen, pending⟩ items (next b) (hitems b)
      have hle : unseenCount items ((next b).foldl (meet push) ⟨seen, pending⟩) +
          ((next b).foldl (meet push) ⟨seen, pending⟩).pending.length ≤ fuel := by
        have hsame : unseenCount items (⟨seen, pending⟩ : Worklist α β) =
            unseenCount items (⟨seen, b :: pending⟩ : Worklist α β) := rfl
        simp only [List.length_cons] at hfuel
        simp only [] at hcount
        omega
      obtain ⟨hseen, hnext, hkept⟩ := @foldl_meet_seen α β _ push ⟨seen, pending⟩ (next b)
      have hclosing' : Closing next push ((next b).foldl (meet push) ⟨seen, pending⟩) := by
        constructor
        intro a ha b' hb'
        rcases foldl_meet_pushed (next b) a ha with hold | hpushed
        · rcases hclosing.handled a hold b' hb' with hmem | hsubset
          · rcases List.mem_cons.1 hmem with rfl | hmem
            · exact .inr hnext
            · exact .inl (hkept hmem)
          · exact .inr (List.Subset.trans hsubset hseen)
        · exact .inl (hpushed b' hb')
      obtain ⟨hpending, hclosed⟩ := ih hle hclosing'
      refine ⟨?_, hclosed⟩
      intro b' hb'
      rcases List.mem_cons.1 hb' with rfl | hb'
      · exact List.Subset.trans hnext (search_seen fuel _)
      · exact hpending b' (hkept hb')

end Worklist

end SemantiST.Lib
