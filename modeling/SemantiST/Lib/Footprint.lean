import Mathlib.Data.Set.Basic

/-!
# What a change of a store reads and writes

A store gives values to locations, and each location is a part of a variable.  A change of the store
has a footprint: the variables it changes, and the variables that decide what it changes them to.
-/

namespace SemantiST.Lib

variable {Name Loc Val : Type} (root : Loc → Name)

/-- Two stores agree on some variables. -/
def Agree (names : Set Name) (σ τ : Loc → Val) : Prop := ∀ l, root l ∈ names → σ l = τ l

theorem Agree.symm {names : Set Name} {σ τ : Loc → Val} (h : Agree root names σ τ) :
    Agree root names τ σ := fun l hl => (h l hl).symm

theorem Agree.mono {names names' : Set Name} {σ τ : Loc → Val} (h : Agree root names' σ τ)
    (hle : names ⊆ names') : Agree root names σ τ := fun l hl => h l (hle hl)

theorem Agree.union {names names' : Set Name} {σ τ : Loc → Val} (h : Agree root names σ τ)
    (h' : Agree root names' σ τ) : Agree root (names ∪ names') σ τ := by
  intro l hl
  rcases hl with hl | hl
  · exact h l hl
  · exact h' l hl

/-! ## What decides a value -/

/-- Names that decide two things, where both are decided by names. -/
def both (names names' : Option (List Name)) : Option (List Name) :=
  names.bind fun before => names'.map fun after => before ++ after

/-- Where a value is decided by names, stores that agree on them give the same one. -/
def DecidedBy {α : Type} (names : Option (List Name)) (f : (Loc → Val) → α) : Prop :=
  ∀ deciding ∈ names, ∀ σ τ, Agree root {x | x ∈ deciding} σ τ → f σ = f τ

section DecidedBy

variable {root} {α β γ : Type} {names names' : Option (List Name)}

theorem exists_of_both {deciding : List Name} (h : deciding ∈ both names names') :
    ∃ before ∈ names, ∃ after ∈ names', before ++ after = deciding := by
  obtain ⟨before, hbefore, h⟩ := Option.bind_eq_some_iff.1 h
  obtain ⟨after, hafter, h⟩ := Option.map_eq_some_iff.1 h
  exact ⟨before, hbefore, after, hafter, h⟩

theorem mem_both {before after : List Name} (h : before ∈ names) (h' : after ∈ names') :
    before ++ after ∈ both names names' :=
  Option.bind_eq_some_iff.2 ⟨before, h, Option.map_eq_some_iff.2 ⟨after, h', rfl⟩⟩

theorem DecidedBy.eq {f : (Loc → Val) → α} (h : DecidedBy root names f) {deciding : List Name}
    (hdeciding : deciding ∈ names) {σ τ : Loc → Val} (hagree : Agree root {x | x ∈ deciding} σ τ) :
    f σ = f τ := h deciding hdeciding σ τ hagree

theorem DecidedBy.const (a : α) : DecidedBy root names fun _ : Loc → Val => a := fun _ _ _ _ _ => rfl

theorem DecidedBy.mono {f : (Loc → Val) → α} (h : DecidedBy root names f)
    (hnames : ∀ deciding' ∈ names', ∃ deciding ∈ names, deciding ⊆ deciding') :
    DecidedBy root names' f := by
  intro deciding' hdeciding' σ τ hagree
  obtain ⟨deciding, hdeciding, hsubset⟩ := hnames deciding' hdeciding'
  exact h deciding hdeciding σ τ (hagree.mono root fun _ hx => hsubset hx)

theorem DecidedBy.map {f : (Loc → Val) → α} (h : DecidedBy root names f) (g : α → β) :
    DecidedBy root names fun σ => g (f σ) :=
  fun deciding hdeciding σ τ hagree => congrArg g (h deciding hdeciding σ τ hagree)

theorem DecidedBy.map₂ {f : (Loc → Val) → α} {g : (Loc → Val) → β} (hf : DecidedBy root names f)
    (hg : DecidedBy root names' g) (k : α → β → γ) :
    DecidedBy root (both names names') fun σ => k (f σ) (g σ) := by
  intro deciding hdeciding σ τ hagree
  obtain ⟨before, hbefore, after, hafter, rfl⟩ := exists_of_both hdeciding
  exact congrArg₂ k (hf before hbefore σ τ (hagree.mono root fun _ hx => List.mem_append_left _ hx))
    (hg after hafter σ τ (hagree.mono root fun _ hx => List.mem_append_right _ hx))

end DecidedBy

/-! ## Changes -/

/-- Only `writes` change, and where stores agree on `reads`, what changes gets the same value. -/
structure Footprint (reads writes : Set Name) (f : (Loc → Val) → Loc → Val) : Prop where
  frame : ∀ σ l, f σ l ≠ σ l → root l ∈ writes
  determined : ∀ σ τ, Agree root reads σ τ → ∀ l, f σ l ≠ σ l ∨ f τ l ≠ τ l → f σ l = f τ l

/-- Where stores agree on `reads`, they agree on some more variables after the change. -/
def Defines (reads names : Set Name) (f : (Loc → Val) → Loc → Val) : Prop :=
  ∀ σ τ, Agree root reads σ τ → Agree root names (f σ) (f τ)

namespace Footprint

variable {root} {reads writes reads' writes' names names' : Set Name} {f g : (Loc → Val) → Loc → Val}

theorem mono (h : Footprint root reads writes f) (hreads : reads ⊆ reads') (hwrites : writes ⊆ writes') :
    Footprint root reads' writes' f :=
  ⟨fun σ l hne => hwrites (h.frame σ l hne),
    fun σ τ hagree => h.determined σ τ (hagree.mono root hreads)⟩

theorem unchanged : Footprint root reads writes (fun σ : Loc → Val => σ) :=
  ⟨fun _ _ hne => absurd rfl hne, fun _ _ _ _ hne => hne.elim (absurd rfl) (absurd rfl)⟩

/-- A location holds what it did in both stores, or it holds the same in both. -/
theorem cases (h : Footprint root reads writes f) {σ τ : Loc → Val} (hagree : Agree root reads σ τ)
    (l : Loc) : (f σ l = σ l ∧ f τ l = τ l) ∨ f σ l = f τ l := by
  by_cases hσ : f σ l = σ l
  · by_cases hτ : f τ l = τ l
    · exact .inl ⟨hσ, hτ⟩
    · exact .inr (h.determined σ τ hagree l (.inr hτ))
  · exact .inr (h.determined σ τ hagree l (.inl hσ))

/-- Stores that agree on what a change reads go on to agree on what they agree on. -/
theorem agree (h : Footprint root reads writes f) {σ τ : Loc → Val} (hagree : Agree root reads σ τ)
    (hnames : Agree root names σ τ) : Agree root names (f σ) (f τ) := by
  intro l hl
  rcases h.cases hagree l with ⟨hσ, hτ⟩ | heq
  · rw [hσ, hτ]
    exact hnames l hl
  · exact heq

/-- A change after another one may read what the first defines. -/
theorem comp (hf : Footprint root reads writes f) (hdefines : Defines root reads names f)
    (hg : Footprint root reads' writes' g) (hreads : reads' ⊆ reads ∪ names) :
    Footprint root reads (writes ∪ writes') fun σ => g (f σ) := by
  constructor
  · intro σ l hne
    by_cases hfirst : f σ l = σ l
    · exact .inr (hg.frame (f σ) l (by rwa [hfirst]))
    · exact .inl (hf.frame σ l hfirst)
  · intro σ τ hagree l hne
    have hagree' : Agree root reads' (f σ) (f τ) :=
      ((hf.agree hagree hagree).union root (hdefines σ τ hagree)).mono root hreads
    rcases hg.cases hagree' l with ⟨hσ, hτ⟩ | heq
    · rcases hf.cases hagree l with ⟨hσ', hτ'⟩ | heq
      · rw [hσ, hτ, hσ', hτ'] at hne
        exact hne.elim (absurd rfl) (absurd rfl)
      · rw [hσ, hτ, heq]
    · exact heq

theorem defines_comp (hf : Footprint root reads writes f) (hdefines : Defines root reads names f)
    (hg : Footprint root reads' writes' g) (hdefines' : Defines root reads' names' g)
    (hreads : reads' ⊆ reads ∪ names) : Defines root reads (names ∪ names') fun σ => g (f σ) := by
  intro σ τ hagree
  have hagree' : Agree root reads' (f σ) (f τ) :=
    ((hf.agree hagree hagree).union root (hdefines σ τ hagree)).mono root hreads
  exact (hg.agree hagree' (hdefines σ τ hagree)).union root (hdefines' _ _ hagree')

end Footprint

end SemantiST.Lib
