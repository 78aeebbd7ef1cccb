import SemantiST.Intake.Chains

/-!
# Chains and their statements

When the statements that `ChainedAssignment` writes leave the store that the chain leaves.
-/

namespace SemantiST.Intake

open Lib

namespace Machine

variable {m : Machine} {targets before after : List Term} {target e : Term} {σ τ : m.Store}

/-! ## Stores -/

theorem split_append : m.split (before ++ [target]) e σ = m.assign target e (m.split before e σ) := by
  rw [split, List.foldl_append]
  rfl

theorem given_append : m.given (before ++ [target]) e σ =
    m.write (m.locate σ target) (m.evaluate σ e) (m.given before e σ) := by
  rw [given, List.foldl_append]
  rfl

theorem write_of_covers {place : m.Place} {v : m.Value} {cell : m.Cell} (h : m.covers place cell = true) :
    m.write place v σ cell = m.content place v cell := if_pos h

theorem write_of_not_covers {place : m.Place} {v : m.Value} {cell : m.Cell} (h : m.covers place cell = false) :
    m.write place v σ cell = σ cell := if_neg (ne_true_of_eq_false h)

/-- Cells that no target covers keep what they hold. -/
theorem given_of_not_covers {cell : m.Cell} (h : ∀ target ∈ targets, m.covers (m.locate σ target) cell = false) :
    m.given targets e σ cell = σ cell := by
  induction targets using List.reverseRecOn with
  | nil => rfl
  | append_singleton targets target ih =>
    rw [given_append, write_of_not_covers (h target (by simp))]
    exact ih fun other hother => h other (List.mem_append_left _ hother)

theorem chain_of_not_covers {cell : m.Cell} (h : ∀ target ∈ targets, m.covers (m.locate σ target) cell = false) :
    m.chain targets e σ cell = σ cell := by
  induction targets with
  | nil => rfl
  | cons target targets ih =>
    refine (write_of_not_covers (h target List.mem_cons_self)).trans ?_
    exact ih fun other hother => h other (List.mem_cons_of_mem _ hother)

/-- Where targets agree, the cells of each hold what it gives them. -/
theorem Agree.given_apply (h : m.Agree targets e σ) (htarget : target ∈ targets) {cell : m.Cell}
    (hcell : m.covers (m.locate σ target) cell = true) :
    m.given targets e σ cell = m.content (m.locate σ target) (m.evaluate σ e) cell := by
  induction targets using List.reverseRecOn with
  | nil => cases htarget
  | append_singleton targets last ih =>
    obtain ⟨hbefore, -, hlast⟩ := List.pairwise_append.1 h
    rw [given_append]
    rcases List.mem_append.1 htarget with htarget | htarget
    · cases hcovers : m.covers (m.locate σ last) cell with
      | true =>
        rw [write_of_covers hcovers]
        exact (hlast target htarget last (List.mem_singleton_self last) cell hcell hcovers).symm
      | false =>
        rw [write_of_not_covers hcovers]
        exact ih hbefore htarget
    · rw [List.mem_singleton.1 htarget] at hcell ⊢
      exact write_of_covers hcell

theorem Agree.chain_apply (h : m.Agree targets e σ) (htarget : target ∈ targets) {cell : m.Cell}
    (hcell : m.covers (m.locate σ target) cell = true) :
    m.chain targets e σ cell = m.content (m.locate σ target) (m.evaluate σ e) cell := by
  induction targets with
  | nil => cases htarget
  | cons first targets ih =>
    obtain ⟨hfirst, hafter⟩ := List.pairwise_cons.1 h
    change m.write (m.locate σ first) (m.evaluate σ e) (m.chain targets e σ) cell = _
    rcases List.mem_cons.1 htarget with rfl | htarget
    · exact write_of_covers hcell
    · cases hcovers : m.covers (m.locate σ first) cell with
      | true =>
        rw [write_of_covers hcovers]
        exact hfirst target htarget cell hcovers hcell
      | false =>
        rw [write_of_not_covers hcovers]
        exact ih hafter htarget

/-- The order in which the targets receive the value does not matter where they agree. -/
theorem Agree.given_eq_chain (h : m.Agree targets e σ) : m.given targets e σ = m.chain targets e σ := by
  funext cell
  by_cases hcell : ∃ target ∈ targets, m.covers (m.locate σ target) cell = true
  · obtain ⟨target, htarget, hcovers⟩ := hcell
    rw [h.given_apply htarget hcovers, h.chain_apply htarget hcovers]
  · have hnone : ∀ target ∈ targets, m.covers (m.locate σ target) cell = false :=
      fun target htarget => Bool.eq_false_iff.2 fun hcovers => hcell ⟨target, htarget, hcovers⟩
    rw [given_of_not_covers hnone, chain_of_not_covers hnone]

/-! ## Undisturbed targets -/

theorem write_congr {place : m.Place} {v w : m.Value}
    (h : ∀ cell, m.covers place cell = true → m.content place v cell = m.content place w cell) :
    m.write place v σ = m.write place w σ := by
  funext cell
  cases hcovers : m.covers place cell with
  | true => rw [write_of_covers hcovers, write_of_covers hcovers, h cell hcovers]
  | false => rw [write_of_not_covers hcovers, write_of_not_covers hcovers]

/-- **A run whose targets disturb nothing is that of the chain**, target by target. -/
theorem Undisturbed.split_eq_given (h : m.Undisturbed targets e σ) : m.split targets e σ = m.given targets e σ := by
  induction targets using List.reverseRecOn with
  | nil => rfl
  | append_singleton targets target ih =>
    have hbefore : m.Undisturbed targets e σ := by
      rintro before other after rfl
      exact h before other (after ++ [target]) (by simp)
    obtain ⟨hplace, hvalue⟩ := h targets target [] rfl
    rw [split_append, given_append, ih hbefore, assign, hplace, write_congr hvalue]

theorem Undisturbed.split_eq_chain (h : m.Undisturbed targets e σ) (hagree : m.Agree targets e σ) :
    m.split targets e σ = m.chain targets e σ :=
  h.split_eq_given.trans hagree.given_eq_chain

/-- The places of targets do not depend on the store, and share no cells. -/
structure Fixed (m : Machine) (targets : List Term) (σ : m.Store) : Prop where
  place : ∀ target ∈ targets, ∀ τ, m.locate τ target = m.locate σ target
  apart : targets.Pairwise fun target other => ∀ cell, m.covers (m.locate σ target) cell = true →
    m.covers (m.locate σ other) cell = false

theorem Fixed.agree (h : Fixed m targets σ) : m.Agree targets e σ := by
  refine h.apart.imp fun hapart cell hcell hother => ?_
  rw [hapart cell hcell] at hother
  cases hother

/-- What is no cell of a target keeps its content. -/
theorem split_of_not_covers (hplace : ∀ target ∈ targets, ∀ τ', m.locate τ' target = m.locate σ target)
    {cell : m.Cell} (h : ∀ target ∈ targets, m.covers (m.locate σ target) cell = false) :
    m.split targets e τ cell = τ cell := by
  induction targets using List.reverseRecOn with
  | nil => rfl
  | append_singleton targets target ih =>
    rw [split_append, assign, hplace target (by simp), write_of_not_covers (h target (by simp))]
    exact ih (fun other hother => hplace other (List.mem_append_left _ hother))
      fun other hother => h other (List.mem_append_left _ hother)

/-- **Where the targets have places of their own, nothing else will do.** -/
theorem Fixed.undisturbed (hfixed : Fixed m targets σ) (h : m.split targets e σ = m.chain targets e σ) :
    m.Undisturbed targets e σ := by
  have hvalue : ∀ before target after, targets = before ++ target :: after →
      ∀ cell, m.covers (m.locate σ target) cell = true →
        m.content (m.locate σ target) (m.evaluate (m.split before e σ) e) cell =
          m.content (m.locate σ target) (m.evaluate σ e) cell := by
    rintro before target after rfl cell hcell
    have hafter : ∀ other ∈ after, m.covers (m.locate σ other) cell = false := fun other hother =>
      (List.pairwise_cons.1 (List.pairwise_append.1 hfixed.apart).2.1).1 other hother cell hcell
    have hsplit : m.split (before ++ target :: after) e σ cell =
        m.content (m.locate σ target) (m.evaluate (m.split before e σ) e) cell := by
      have hrun : m.split (before ++ target :: after) e σ = m.split after e (m.assign target e (m.split before e σ)) := by
        rw [split, List.foldl_append]
        rfl
      rw [hrun, split_of_not_covers (fun other hother => hfixed.place other (by simp [hother])) hafter, assign,
        hfixed.place target (by simp), write_of_covers hcell]
    rw [← hsplit, h, hfixed.agree.chain_apply (by simp) hcell]
  have hprefix : ∀ before after, targets = before ++ after → m.split before e σ = m.given before e σ := by
    intro before
    induction before using List.reverseRecOn with
    | nil => exact fun _ _ => rfl
    | append_singleton before target ih =>
      intro after heq
      have heq' : targets = before ++ target :: after := by simpa using heq
      have hmem : target ∈ targets := by rw [heq']; simp
      have hcontent := hvalue before target after heq'
      rw [ih _ heq'] at hcontent
      rw [split_append, given_append, ih _ heq', assign, hfixed.place target hmem, write_congr hcontent]
  intro before target after heq
  have hmem : target ∈ targets := by rw [heq]; simp
  refine ⟨hfixed.place target hmem _, ?_⟩
  rw [← hprefix before _ heq]
  exact hvalue before target after heq

end Machine

/-! ## Variables of their own -/

namespace Term

/-- The variable that a reference starts with. -/
def base : Term → Text
  | name x => toAsciiUppercase x
  | member t _ => t.base
  | element t _ => t.base
  | deref t => t.base
  | part t _ => t.base
  | _ => []

/-- The variables in a term. -/
def bases : Term → List Text
  | name x => [toAsciiUppercase x]
  | member t _ => t.bases
  | element t index => t.bases ++ index.bases
  | deref t => t.bases
  | part t _ => t.bases
  | address _ => []
  | literal _ => []
  | unary _ t => t.bases
  | binary _ t t' => t.bases ++ t'.bases
  | paren t => t.bases

/-- The variables in the indices of a reference. -/
def indexBases : Term → List Text
  | member t _ => t.indexBases
  | element t index => t.indexBases ++ index.bases
  | part t _ => t.indexBases
  | _ => []

/-- No pointer is followed, and no direct address is read. -/
def direct : Term → Bool
  | name _ => true
  | member t _ => t.direct
  | element t index => t.direct && index.direct
  | deref _ => false
  | part t _ => t.direct
  | address _ => false
  | literal _ => true
  | unary _ t => t.direct
  | binary _ t t' => t.direct && t'.direct
  | paren t => t.direct

theorem base_mem_bases {t : Term} (h : t.isReference = true) : t.base ∈ t.bases := by
  induction t with
  | name x => exact List.mem_singleton_self _
  | member t _ ih => exact ih h
  | element t _ ih _ => exact List.mem_append_left _ (ih h)
  | deref t ih => exact ih h
  | part _ _ _ => cases h
  | address _ => cases h
  | literal _ => cases h
  | unary _ _ _ => cases h
  | binary _ _ _ _ _ => cases h
  | paren _ _ => cases h

theorem indexBases_subset (t : Term) : t.indexBases ⊆ t.bases := by
  induction t with
  | member t _ ih => exact ih
  | element t index ih _ =>
    exact List.append_subset.2 ⟨List.Subset.trans ih (List.subset_append_left _ _), List.subset_append_right _ _⟩
  | part t _ ih => exact ih
  | _ => exact List.nil_subset _

end Term

/-- Every cell belongs to one variable: a name stands for the same place in every store, which covers cells of
this variable only, and the parts of a place lie in it. -/
structure Owners (m : Machine) where
  owner : m.Cell → Text
  fixed : ∀ x σ τ, m.name x σ = m.name x τ
  name : ∀ x σ cell, m.covers (m.name x σ) cell = true → owner cell = toAsciiUppercase x
  member : ∀ x place cell, m.covers (m.member x place) cell = true → m.covers place cell = true
  part : ∀ x place cell, m.covers (m.part x place) cell = true → m.covers place cell = true
  element : ∀ v place cell, m.covers (m.element v place) cell = true → m.covers place cell = true

section Owned

variable {m : Machine} {σ τ : m.Store} {inside : Bool} {t : Term} {tokens : List LosslessToken} {names : List Text}

theorem Owners.owner_locate (owners : Owners m) (hreference : t.isReference = true) (hdirect : t.direct = true)
    {cell : m.Cell} (hcell : m.covers (m.locate σ t) cell = true) : owners.owner cell = t.base := by
  induction t with
  | name x => exact owners.name x σ cell hcell
  | member t x ih => exact ih hreference hdirect (owners.member x _ cell hcell)
  | element t index ih _ =>
    rw [Term.direct, Bool.and_eq_true] at hdirect
    exact ih hreference hdirect.1 (owners.element _ _ cell hcell)
  | deref t _ => cases hdirect
  | part _ _ _ => cases hreference
  | address _ => cases hreference
  | literal _ => cases hreference
  | unary _ _ _ => cases hreference
  | binary _ _ _ _ _ => cases hreference
  | paren _ _ => cases hreference

/-- **A term means the same** in stores that agree on the cells of its variables. -/
theorem Owners.denote_congr (owners : Owners m) (hagree : ∀ cell, owners.owner cell ∉ names → σ cell = τ cell)
    (h : Renders inside t tokens) (hdirect : t.direct = true) :
    (t.isReference = true → (∀ x ∈ t.indexBases, x ∉ names) → m.locate σ t = m.locate τ t) ∧
      ((∀ x ∈ t.bases, x ∉ names) → m.evaluate σ t = m.evaluate τ t) := by
  -- what is read from a part of a variable, when its place is the same
  have hread (t : Term) (hreference : t.isReference = true) (hdirect : t.direct = true)
      (hbases : ∀ x ∈ t.bases, x ∉ names) {place : m.Place}
      (hplace : ∀ cell, m.covers place cell = true → m.covers (m.locate σ t) cell = true) :
      m.read place σ = m.read place τ := by
    refine m.read_congr place σ τ fun cell hcell => hagree cell ?_
    rw [owners.owner_locate hreference hdirect (hplace cell hcell)]
    exact hbases _ (Term.base_mem_bases hreference)
  induction h with
  | @name _ token _ _ =>
    have hplace : m.locate σ (.name token.text) = m.locate τ (.name token.text) := owners.fixed _ σ τ
    refine ⟨fun _ _ => hplace, fun hbases => ?_⟩
    exact (hread (.name token.text) rfl rfl hbases fun _ hcell => hcell).trans (congrArg (m.read · τ) hplace)
  | @member _ t _ _ name _ hreference _ _ _ ih =>
    have hplace (hindices : ∀ x ∈ t.indexBases, x ∉ names) :
        m.locate σ (.member t name.text) = m.locate τ (.member t name.text) :=
      congrArg (m.member name.text) ((ih hdirect).1 hreference hindices)
    refine ⟨fun _ hindices => hplace hindices, fun hbases => ?_⟩
    exact (hread (.member t name.text) hreference hdirect hbases fun _ hcell => hcell).trans
      (congrArg (m.read · τ) (hplace fun x hx => hbases x (t.indexBases_subset hx)))
  | @element _ t _ _ index _ _ _ hreference _ _ _ ih ih' =>
    have hdirects := hdirect
    rw [Term.direct, Bool.and_eq_true] at hdirects
    have hplace (hindices : ∀ x ∈ (Term.element t index).indexBases, x ∉ names) :
        m.locate σ (.element t index) = m.locate τ (.element t index) := by
      have hindex : m.evaluate σ index = m.evaluate τ index :=
        (ih' hdirects.2).2 fun x hx => hindices x (List.mem_append_right _ hx)
      have hreferred : m.locate σ t = m.locate τ t :=
        (ih hdirects.1).1 hreference fun x hx => hindices x (List.mem_append_left _ hx)
      exact congrArg₂ m.element hindex hreferred
    refine ⟨fun _ hindices => hplace hindices, fun hbases => ?_⟩
    exact (hread (.element t index) hreference hdirect hbases fun _ hcell => hcell).trans
      (congrArg (m.read · τ) (hplace fun x hx => hbases x (Term.indexBases_subset _ hx)))
  | deref _ _ _ _ => cases hdirect
  | @part _ t _ _ first digits _ hreference _ _ _ ih =>
    refine ⟨fun h => (Bool.false_ne_true h).elim, fun hbases => ?_⟩
    have hplace : m.locate σ t = m.locate τ t :=
      (ih hdirect).1 hreference fun x hx => hbases x (t.indexBases_subset hx)
    exact (hread t hreference hdirect hbases (owners.part _ _)).trans
      (congrArg (fun place => m.read (m.part (textOf (first :: digits)) place) τ) hplace)
  | address _ _ _ => cases hdirect
  | literal _ => exact ⟨fun h => (Bool.false_ne_true h).elim, fun _ => rfl⟩
  | decimal _ _ _ _ _ => exact ⟨fun h => (Bool.false_ne_true h).elim, fun _ => rfl⟩
  | @unary _ _ _ op _ _ _ ih =>
    exact ⟨fun h => (Bool.false_ne_true h).elim, fun hbases => congrArg (m.unary op.text) ((ih hdirect).2 hbases)⟩
  | @binary _ _ _ op _ _ _ _ _ ih ih' =>
    rw [Term.direct, Bool.and_eq_true] at hdirect
    refine ⟨fun h => (Bool.false_ne_true h).elim, fun hbases => congrArg₂ (m.binary op.text) ?_ ?_⟩
    · exact (ih hdirect.1).2 fun x hx => hbases x (List.mem_append_left _ hx)
    · exact (ih' hdirect.2).2 fun x hx => hbases x (List.mem_append_right _ hx)
  | paren _ _ _ _ ih => exact ⟨fun h => (Bool.false_ne_true h).elim, fun hbases => (ih hdirect).2 hbases⟩
  | @array _ _ opening _ _ _ _ _ _ ih =>
    exact ⟨fun h => (Bool.false_ne_true h).elim, fun hbases => congrArg (m.unary opening.text) ((ih hdirect).2 hbases)⟩
  | @field _ name _ _ _ _ _ _ ih =>
    exact ⟨fun h => (Bool.false_ne_true h).elim, fun hbases => congrArg (m.unary name.text) ((ih hdirect).2 hbases)⟩

/-- The variables of a term stand in its tokens. -/
theorem Renders.mem_bases (h : Renders inside t tokens) :
    ∀ x ∈ t.bases, ∃ token ∈ tokens, token.isWord = true ∧ token.upper = x := by
  have hin {part whole : List LosslessToken} (hsub : part ⊆ whole) {x : Text}
      (h : ∃ token ∈ part, token.isWord = true ∧ token.upper = x) :
      ∃ token ∈ whole, token.isWord = true ∧ token.upper = x := by
    obtain ⟨token, hmem, hword⟩ := h
    exact ⟨token, hsub hmem, hword⟩
  induction h with
  | @name _ token hword _ =>
    exact fun x hx => ⟨token, List.mem_singleton_self _, hword, (List.mem_singleton.1 hx).symm⟩
  | address _ _ _ => exact fun x hx => by cases hx
  | literal _ => exact fun x hx => by cases hx
  | decimal _ _ _ _ _ => exact fun x hx => by cases hx
  | member _ _ _ _ _ ih => exact fun x hx => hin (List.subset_append_left _ _) (ih x hx)
  | element _ _ _ _ _ ih ih' =>
    intro x hx
    rcases List.mem_append.1 hx with hx | hx
    · exact hin (List.subset_append_left _ _) (ih x hx)
    · exact hin (List.Subset.trans (List.subset_append_left _ _)
        (List.Subset.trans (List.subset_cons_self _ _) (List.subset_append_right _ _))) (ih' x hx)
  | deref _ _ _ ih => exact fun x hx => hin (List.subset_append_left _ _) (ih x hx)
  | part _ _ _ _ _ ih => exact fun x hx => hin (List.subset_append_left _ _) (ih x hx)
  | unary _ _ _ ih => exact fun x hx => hin (List.subset_cons_self _ _) (ih x hx)
  | binary _ _ _ ih ih' =>
    intro x hx
    rcases List.mem_append.1 hx with hx | hx
    · exact hin (List.subset_append_left _ _) (ih x hx)
    · exact hin (List.Subset.trans (List.subset_cons_self _ _) (List.subset_append_right _ _)) (ih' x hx)
  | paren _ _ _ _ ih =>
    exact fun x hx => hin (List.Subset.trans (List.subset_append_left _ _) (List.subset_cons_self _ _)) (ih x hx)
  | array _ _ _ _ ih =>
    exact fun x hx => hin (List.Subset.trans (List.subset_append_left _ _) (List.subset_cons_self _ _)) (ih x hx)
  | field _ _ _ _ ih =>
    exact fun x hx => hin (List.Subset.trans (List.subset_cons_self _ _) (List.subset_cons_self _ _)) (ih x hx)

/-- The first token of a reference is its variable; those in its indices stand behind it. -/
theorem Renders.mem_indexBases (h : Renders inside t tokens) (hreference : t.isReference = true) :
    ∃ first more, tokens = first :: more ∧ first.upper = t.base ∧
      ∀ x ∈ t.indexBases, ∃ token ∈ more, token.isWord = true ∧ token.upper = x := by
  induction h with
  | name _ _ => exact ⟨_, [], rfl, rfl, fun x hx => by cases hx⟩
  | member _ ht _ _ _ ih =>
    obtain ⟨first, more, rfl, hfirst, hmore⟩ := ih ht
    refine ⟨first, _, List.cons_append, hfirst, fun x hx => ?_⟩
    obtain ⟨token, hmem, hword⟩ := hmore x hx
    exact ⟨token, List.mem_append_left _ hmem, hword⟩
  | element _ ht _ hindex _ ih _ =>
    obtain ⟨first, more, rfl, hfirst, hmore⟩ := ih ht
    refine ⟨first, _, List.cons_append, hfirst, fun x hx => ?_⟩
    rcases List.mem_append.1 hx with hx | hx
    · obtain ⟨token, hmem, hword⟩ := hmore x hx
      exact ⟨token, List.mem_append_left _ hmem, hword⟩
    · obtain ⟨token, hmem, hword⟩ := hindex.mem_bases x hx
      exact ⟨token, List.mem_append_right _ (List.mem_cons_of_mem _ (List.mem_append_left _ hmem)), hword⟩
  | deref _ ht _ ih =>
    obtain ⟨first, more, rfl, hfirst, -⟩ := ih ht
    exact ⟨first, _, List.cons_append, hfirst, fun x hx => by cases hx⟩
  | part _ _ _ _ _ _ => cases hreference
  | address _ _ _ => cases hreference
  | literal _ => cases hreference
  | decimal _ _ _ _ _ => cases hreference
  | unary _ _ _ _ => cases hreference
  | binary _ _ _ _ _ => cases hreference
  | paren _ _ _ _ _ => cases hreference
  | array _ _ _ _ _ => cases hreference
  | field _ _ _ _ _ => cases hreference

/-- Every target of a chain has its tokens. -/
theorem RendersTargets.exists_tokens {ts : List Term} {targets : List (List LosslessToken)}
    (h : RendersTargets ts targets tokens) {target : Term} (htarget : target ∈ ts) :
    ∃ rendered ∈ targets, Renders false target rendered ∧ target.isReference = true := by
  induction h with
  | nil => cases htarget
  | cons hrenders hreference _ _ _ ih =>
    rcases List.mem_cons.1 htarget with rfl | htarget
    · exact ⟨_, List.mem_cons_self, hrenders, hreference⟩
    · obtain ⟨rendered, hmem, h⟩ := ih htarget
      exact ⟨rendered, List.mem_cons_of_mem _ hmem, h⟩

/-- **What the rule accepts disturbs nothing**, when every variable has cells of its own, no pointer is followed and
no direct address is read. -/
theorem Owners.undisturbed (owners : Owners m) {ts : List Term} {e : Term} {chain : Chain}
    (htargets : RendersTargets ts chain.targets tokens) (he : Renders false e chain.expression)
    (haccepted : chain.accepted = true) (hdirect : ∀ t ∈ e :: ts, t.direct = true) : m.Undisturbed ts e σ := by
  simp only [Chain.accepted, Bool.and_eq_true, Bool.not_eq_true', Chain.mentions, List.any_eq_false] at haccepted
  obtain ⟨⟨-, hexpression⟩, hindices⟩ := haccepted
  have hbase : ∀ target ∈ ts, target.base ∈ chain.names := by
    intro target htarget
    obtain ⟨rendered, hmem, hrenders, hreference⟩ := htargets.exists_tokens htarget
    obtain ⟨first, more, rfl, hfirst, -⟩ := hrenders.mem_indexBases hreference
    exact List.mem_filterMap.2 ⟨_, hmem, congrArg some hfirst⟩
  have hagree : ∀ before, before ⊆ ts → ∀ cell, owners.owner cell ∉ chain.names →
      m.given before e σ cell = σ cell := by
    intro before hbefore cell hcell
    refine Machine.given_of_not_covers fun target htarget => Bool.eq_false_iff.2 fun hcovers => hcell ?_
    obtain ⟨_, -, -, hreference⟩ := htargets.exists_tokens (hbefore htarget)
    rw [owners.owner_locate hreference (hdirect _ (List.mem_cons_of_mem _ (hbefore htarget))) hcovers]
    exact hbase _ (hbefore htarget)
  rintro before target after rfl
  have hbefore := hagree before (List.subset_append_left _ _)
  have htarget : target ∈ before ++ target :: after := by simp
  constructor
  · obtain ⟨rendered, hmem, hrenders, hreference⟩ := htargets.exists_tokens htarget
    refine (owners.denote_congr hbefore hrenders (hdirect _ (List.mem_cons_of_mem _ htarget))).1 hreference ?_
    obtain ⟨first, more, rfl, -, hmore⟩ := hrenders.mem_indexBases hreference
    intro x hx hname
    obtain ⟨token, htoken, hword, rfl⟩ := hmore x hx
    exact hindices _ hmem (List.any_eq_true.2 ⟨token, htoken, by simp [hword, hname]⟩)
  · intro cell _
    refine congrArg (m.content _ · cell) ((owners.denote_congr hbefore he (hdirect _ List.mem_cons_self)).2 ?_)
    intro x hx hname
    obtain ⟨token, htoken, hword, rfl⟩ := he.mem_bases x hx
    exact hexpression token htoken (by simp [hword, hname])

/-- Different variables share no cells. -/
theorem Owners.agree (owners : Owners m) {ts : List Term} {e : Term}
    (hreference : ∀ t ∈ ts, t.isReference = true) (hdirect : ∀ t ∈ ts, t.direct = true)
    (hdistinct : (ts.map Term.base).Nodup) : m.Agree ts e σ := by
  refine (List.pairwise_map.1 hdistinct).imp_of_mem fun {t t'} ht ht' hne cell hcell hcell' => ?_
  have howner := owners.owner_locate (hreference t ht) (hdirect t ht) hcell
  rw [owners.owner_locate (hreference t' ht') (hdirect t' ht') hcell'] at howner
  exact absurd howner.symm hne

end Owned

/-! ## The statements of a chain -/

def digitsValue (x : Text) : ℕ := x.foldl (fun n c => 10 * n + (c.toNat - '0'.toNat)) 0

/-- The word that some bits are. -/
def wordOf (bit : ℕ → Bool) : ℕ := ((List.range 16).map fun i => if bit i then 2 ^ i else 0).sum

/-- A variable, or one bit of it, among the bits of all variables. -/
def coversBit (place : Text × Option ℕ) (cell : Text × ℕ) : Bool :=
  place.1 = cell.1 && cell.2 < 16 && place.2.all (· = cell.2)

def readBits (place : Text × Option ℕ) (σ : Text × ℕ → Bool) : ℕ :=
  match place.2 with
  | none => wordOf fun i => σ (place.1, i)
  | some bit => if bit < 16 ∧ σ (place.1, bit) then 1 else 0

theorem readBits_congr (place : Text × Option ℕ) (σ τ : Text × ℕ → Bool)
    (h : ∀ cell, coversBit place cell = true → σ cell = τ cell) : readBits place σ = readBits place τ := by
  obtain ⟨x, bit⟩ := place
  cases bit with
  | none =>
    refine congrArg List.sum (List.map_congr_left fun i hi => ?_)
    have hbit : σ (x, i) = τ (x, i) := h (x, i) (by simpa [coversBit] using hi)
    simp only [hbit]
  | some bit =>
    by_cases hbit : bit < 16
    · simp only [readBits, h (x, bit) (by simpa [coversBit] using hbit)]
    · simp only [readBits, hbit, false_and, if_false]

def bitOf (x : Text) (place : Text × Option ℕ) : Text × Option ℕ := (place.1, some (place.2.getD (digitsValue x)))

theorem coversBit_of_bitOf {x : Text} {place : Text × Option ℕ} {cell : Text × ℕ}
    (h : coversBit (bitOf x place) cell = true) : coversBit place cell = true := by
  obtain ⟨y, bit⟩ := place
  cases bit with
  | none =>
    simp only [coversBit, bitOf, Bool.and_eq_true] at h ⊢
    exact ⟨h.1, rfl⟩
  | some bit => exact h

theorem eq_of_coversBit {x : Text} {bit : Option ℕ} {cell : Text × ℕ} (h : coversBit (x, bit) cell = true) :
    cell.1 = x := by
  simp only [coversBit, Bool.and_eq_true, decide_eq_true_eq] at h
  exact h.1.1.symm

/-- Variables are words of sixteen bits, and the cells are their bits; a pointer holds the character that its
variable is called. -/
def words : Machine where
  Cell := Text × ℕ
  Content := Bool
  Place := Text × Option ℕ
  Value := ℕ
  covers := coversBit
  content place v cell := if place.2.isSome then v.testBit 0 else v.testBit cell.2
  read := readBits
  read_congr := readBits_congr
  nowhere := ([], none)
  name x _ := (toAsciiUppercase x, none)
  address x := (x, none)
  member _ place := place
  part := bitOf
  element _ place := place
  pointee v := ([Char.ofNat v], none)
  literal := digitsValue
  unary _ v := v
  binary _ v w := v + w

/-- The bits of a word belong to its variable. -/
def wordOwners : Owners words where
  owner := Prod.fst
  fixed _ _ _ := rfl
  name _ _ _ h := eq_of_coversBit h
  member _ _ _ h := h
  part _ _ _ h := coversBit_of_bitOf h
  element _ _ _ h := h

/-- The token of a source at a place. -/
def tokenOf (kind : TokenKind) (text : String) (start : ℕ) : LosslessToken :=
  { kind, text := text.toList, start, stop := start + text.length, line := 1, column := start + 1 }

theorem renders_name {x : String} {start : ℕ} (h : (tokenOf .identifier x start).Neutral) :
    Renders false (.name x.toList) [tokenOf .identifier x start] := .name rfl h

def pairTerms : List Term := [.name "a".toList, .name "b".toList]

def pairTargets : List (List LosslessToken) := [[tokenOf .identifier "a" 0], [tokenOf .identifier "b" 5]]

def pairFront : List LosslessToken :=
  [tokenOf .identifier "a" 0, tokenOf .symbol ":=" 2, tokenOf .identifier "b" 5, tokenOf .symbol ":=" 7]

theorem pairTargets_renders : RendersTargets pairTerms pairTargets pairFront := by
  have hfirst := @renders_name "a" 0 (by unfold LosslessToken.Neutral; decide)
  have hsecond := @renders_name "b" 5 (by unfold LosslessToken.Neutral; decide)
  exact @RendersTargets.cons _ _ _ _ (tokenOf .symbol ":=" 2) _ hfirst rfl rfl (by decide)
    (@RendersTargets.cons _ _ _ _ (tokenOf .symbol ":=" 7) _ hsecond rfl rfl (by decide) .nil)

/-! ### A bit -/

def bitExpression : List LosslessToken := [tokenOf .identifier "w" 10, tokenOf .symbol "." 11, tokenOf .number "3" 12]

def bitTerm : Term := .part (.name "w".toList) "3".toList

theorem bitTerm_renders : Renders false bitTerm bitExpression := by
  have hword := @renders_name "w" 10 (by unfold LosslessToken.Neutral; decide)
  have hdigits : ∀ token ∈ [tokenOf .number "3" 12], token.Neutral :=
    List.forall_mem_singleton.2 (by unfold LosslessToken.Neutral; decide)
  exact @Renders.part _ _ _ (tokenOf .symbol "." 11) _ _ hword rfl (by decide) (by decide) hdigits

def bitChain : Chain where
  targets := pairTargets
  expression := bitExpression
  rest := [tokenOf .symbol ";" 13]

/-- The word has the bit, and everything else is zero. -/
def bitStore : words.Store := fun cell => cell.1 = "W".toList && cell.2 = 3

theorem bitTokens : significant (tokenizeLossless asciiData "a := b := w.3;".toList) =
    pairFront ++ (bitExpression ++ [tokenOf .symbol ";" 13]) := by decide +kernel

def pointerExpression : List LosslessToken :=
  [tokenOf .identifier "p" 10, tokenOf .symbol "^" 11, tokenOf .symbol "+" 13, tokenOf .number "1" 15]

def pointerTerm : Term := .binary "+".toList (.deref (.name "p".toList)) (.literal "1".toList)

theorem pointerTerm_renders : Renders false pointerTerm pointerExpression := by
  have hpointer := @renders_name "p" 10 (by unfold LosslessToken.Neutral; decide)
  have hderef := @Renders.deref _ _ _ (tokenOf .symbol "^" 11) hpointer rfl (by decide)
  have hone := @Renders.literal false (tokenOf .number "1" 15) (by unfold LosslessToken.Neutral; decide)
  exact @Renders.binary _ _ _ (tokenOf .symbol "+" 13) _ _ hderef (by unfold LosslessToken.Neutral; decide) hone

def pointerChain : Chain where
  targets := pairTargets
  expression := pointerExpression
  rest := [tokenOf .symbol ";" 16]

/-- All words are zero, but the pointer leads to the first target. -/
def pointerStore : words.Store := fun cell => cell.1 = "P".toList && 'A'.toNat.testBit cell.2

def bitIn (σ : words.Store) (x : String) (bit : ℕ) : Bool := σ (x.toList, bit)

end SemantiST.Intake
