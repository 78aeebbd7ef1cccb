import Mathlib.Data.List.Chain
import Mathlib.Data.List.Nodup

/-!
# Back edges of a depth-first search

A depth-first search that collects the targets of its back edges.  Every cycle of the graph goes
through one of them (`exists_target_of_cycle`).
-/

namespace SemantiST.Lib

inductive Visit where
  | unseen | active | finished
  deriving DecidableEq

/-- A search under way: what it knows of each node, and the targets of the back edges. -/
structure Search (α : Type*) where
  status : α → Visit := fun _ => .unseen
  targets : List α := []

namespace Search

variable {α : Type*}

/-- What a search adds to what it had done. -/
structure Grows (σ σ' : Search α) : Prop where
  active : ∀ a, σ'.status a = .active ↔ σ.status a = .active
  unseen : ∀ a, σ'.status a = .unseen → σ.status a = .unseen
  targets : σ.targets ⊆ σ'.targets

/-- The number of nodes that were not seen. -/
def unseenCount (nodes : List α) (σ : Search α) : ℕ :=
  nodes.countP fun a => σ.status a = .unseen

section Grows

variable {σ σ' σ'' : Search α} {nodes : List α}

theorem Grows.refl (σ : Search α) : Grows σ σ := ⟨fun _ => Iff.rfl, fun _ h => h, fun _ h => h⟩

theorem Grows.trans (h : Grows σ σ') (h' : Grows σ' σ'') : Grows σ σ'' where
  active a := (h'.active a).trans (h.active a)
  unseen a ha := h.unseen a (h'.unseen a ha)
  targets _ ha := h'.targets (h.targets ha)

theorem Grows.unseenCount_le (h : Grows σ σ') : unseenCount nodes σ' ≤ unseenCount nodes σ := by
  apply List.countP_mono_left
  intro a _ ha
  exact decide_eq_true (h.unseen a (of_decide_eq_true ha))

end Grows

/-- The nodes that edges lead to are known. -/
theorem known_of_isChain {succ : α → List α} {known : α → Bool} {a : α} {path : List α}
    (h : (a :: path).IsChain fun a b => b ∈ succ a ∧ known b = true) : ∀ b ∈ path, known b = true := by
  induction path generalizing a with
  | nil => exact fun b hb => nomatch hb
  | cons b path ih =>
    rw [List.isChain_cons_cons] at h
    intro c hc
    rcases List.mem_cons.1 hc with rfl | hc
    · exact h.1.2
    · exact ih h.2 c hc

/-! ## The search -/

variable [DecidableEq α]

def mark (σ : Search α) (a : α) (v : Visit) : Search α :=
  { σ with status := fun b => if b = a then v else σ.status b }

@[simp] theorem mark_status (σ : Search α) (a b : α) (v : Visit) :
    (σ.mark a v).status b = if b = a then v else σ.status b := rfl

@[simp] theorem mark_targets (σ : Search α) (a : α) (v : Visit) : (σ.mark a v).targets = σ.targets := rfl

variable (succ : α → List α) (known : α → Bool)

/-- An edge to `b` is explored. -/
def explore (next : Search α → α → Option (Search α)) (σ : Search α) (b : α) : Option (Search α) :=
  if !known b then some σ
  else
    match σ.status b with
    | .active => some { σ with targets := b :: σ.targets }
    | .unseen => next σ b
    | .finished => some σ

/-- A node is visited, and from there every node that was not seen before. -/
def visit : ℕ → Search α → α → Option (Search α)
  | 0, _, _ => none
  | fuel + 1, σ, a => do
    let σ ← (succ a).foldlM (explore known (visit fuel)) (σ.mark a .active)
    return σ.mark a .finished

/-- The search from each of the nodes in turn. -/
def searchFrom (fuel : ℕ) (σ : Search α) (nodes : List α) : Option (Search α) :=
  nodes.foldlM (fun σ a => if σ.status a = .unseen then visit succ known fuel σ a else some σ) σ

/-! ## What a visit does -/

/-- The finished nodes stand in the order in which they were finished: an edge leads to a target of
a back edge or to a node finished earlier. -/
structure Ordered (σ : Search α) (order : List α) : Prop where
  finished : ∀ a, σ.status a = .finished ↔ a ∈ order
  edges : ∀ pre a post, order = pre ++ a :: post → ∀ b ∈ succ a, known b = true →
    b ∈ σ.targets ∨ b ∈ pre

variable {succ : α → List α} {known : α → Bool} {nodes : List α} {σ σ' σ'' : Search α} {a : α}

theorem unseenCount_mark_lt (ha : a ∈ nodes) (hunseen : σ.status a = .unseen) :
    unseenCount nodes (σ.mark a .active) < unseenCount nodes σ := by
  obtain ⟨pre, post, rfl⟩ := List.append_of_mem ha
  have hle : ∀ list : List α, unseenCount list (σ.mark a .active) ≤ unseenCount list σ := by
    intro list
    apply List.countP_mono_left
    intro b _ hb
    have hb := of_decide_eq_true hb
    rw [mark_status] at hb
    split at hb
    · exact Visit.noConfusion hb
    · exact decide_eq_true hb
  have hpre := hle pre
  have hpost := hle post
  unfold unseenCount at hpre hpost ⊢
  rw [List.countP_append, List.countP_append, List.countP_cons_of_neg (by simp),
    List.countP_cons_of_pos (by simp [hunseen])]
  omega

/-- Exploring a list of edges, when a visit does what it should. -/
theorem explore_spec {fuel : ℕ} (hknown : ∀ b, known b = true → b ∈ nodes)
    (hvisit : ∀ (σ : Search α) (order : List α) (a : α), Ordered succ known σ order →
      σ.status a = .unseen → a ∈ nodes → unseenCount nodes σ ≤ fuel →
      ∃ σ' new, visit succ known fuel σ a = some σ' ∧ Ordered succ known σ' (order ++ new) ∧
        Grows σ σ' ∧ a ∈ new)
    (edges : List α) (σ : Search α) (order : List α) (hordered : Ordered succ known σ order)
    (hfuel : unseenCount nodes σ ≤ fuel) :
    ∃ σ' new, edges.foldlM (explore known (visit succ known fuel)) σ = some σ' ∧
      Ordered succ known σ' (order ++ new) ∧ Grows σ σ' ∧
      ∀ b ∈ edges, known b = true → b ∈ σ'.targets ∨ b ∈ order ++ new := by
  induction edges generalizing σ order with
  | nil => exact ⟨σ, [], rfl, by rwa [List.append_nil], Grows.refl σ, fun b hb => nomatch hb⟩
  | cons b edges ih =>
    -- what the first edge leaves
    have hfirst : ∃ σ' new, explore known (visit succ known fuel) σ b = some σ' ∧
        Ordered succ known σ' (order ++ new) ∧ Grows σ σ' ∧
        (known b = true → b ∈ σ'.targets ∨ b ∈ order ++ new) := by
      unfold explore
      cases hb : known b with
      | false => exact ⟨σ, [], rfl, by rwa [List.append_nil], Grows.refl σ, fun h => nomatch h⟩
      | true =>
        simp only [Bool.not_true, Bool.false_eq_true, if_false]
        cases hstatus : σ.status b with
        | active =>
          refine ⟨_, [], rfl, ?_, ⟨fun _ => Iff.rfl, fun _ h => h, List.subset_cons_self _ _⟩,
            fun _ => .inl List.mem_cons_self⟩
          rw [List.append_nil]
          refine ⟨hordered.finished, fun pre a post heq c hc hk => ?_⟩
          exact (hordered.edges pre a post heq c hc hk).imp_left (List.mem_cons_of_mem _)
        | unseen =>
          obtain ⟨σ', new, hrun, hordered', hgrows, hmem⟩ :=
            hvisit σ order b hordered hstatus (hknown b hb) hfuel
          exact ⟨σ', new, hrun, hordered', hgrows, fun _ => .inr (List.mem_append_right _ hmem)⟩
        | finished =>
          exact ⟨σ, [], rfl, by rwa [List.append_nil], Grows.refl σ,
            fun _ => .inr (List.mem_append_left _ ((hordered.finished b).1 hstatus))⟩
    obtain ⟨σ', new, hrun, hordered', hgrows, hmem⟩ := hfirst
    obtain ⟨σ'', new', hrun', hordered'', hgrows', hmem'⟩ :=
      ih σ' (order ++ new) hordered' (hgrows.unseenCount_le.trans hfuel)
    refine ⟨σ'', new ++ new', ?_, by rwa [← List.append_assoc], hgrows.trans hgrows', ?_⟩
    · rw [List.foldlM_cons, hrun]
      exact hrun'
    · intro c hc hk
      rw [← List.append_assoc]
      rcases List.mem_cons.1 hc with rfl | hc
      · rcases hmem hk with h | h
        · exact .inl (hgrows'.targets h)
        · exact .inr (List.mem_append_left _ h)
      · exact hmem' c hc hk

/-- **A visit finishes the node**, after all that it leads to. -/
theorem visit_spec (hknown : ∀ b, known b = true → b ∈ nodes) (fuel : ℕ) (σ : Search α)
    (order : List α) (a : α) (hordered : Ordered succ known σ order) (hunseen : σ.status a = .unseen)
    (ha : a ∈ nodes) (hfuel : unseenCount nodes σ ≤ fuel) :
    ∃ σ' new, visit succ known fuel σ a = some σ' ∧ Ordered succ known σ' (order ++ new) ∧
      Grows σ σ' ∧ a ∈ new := by
  induction fuel generalizing σ order a with
  | zero =>
    have hlt := unseenCount_mark_lt ha hunseen
    omega
  | succ fuel ih =>
    have hlt := unseenCount_mark_lt ha hunseen
    have hactive : Ordered succ known (σ.mark a .active) order := by
      refine ⟨fun b => ?_, hordered.edges⟩
      rw [mark_status]
      split
      · rename_i hb
        subst hb
        rw [← hordered.finished, hunseen]
        exact ⟨Visit.noConfusion, Visit.noConfusion⟩
      · exact hordered.finished b
    obtain ⟨σ', new, hrun, hordered', hgrows, hedges⟩ :=
      explore_spec hknown ih (succ a) (σ.mark a .active) order hactive (by omega)
    have hstatus : σ'.status a = .active := by
      rw [hgrows.active, mark_status, if_pos rfl]
    have hnot : a ∉ order ++ new := by
      rw [← hordered'.finished, hstatus]
      exact Visit.noConfusion
    refine ⟨σ'.mark a .finished, new ++ [a], ?_, ?_, ?_, List.mem_append_right _ List.mem_cons_self⟩
    · rw [visit, hrun]
      rfl
    · rw [← List.append_assoc]
      refine ⟨fun b => ?_, ?_⟩
      · rw [mark_status, List.mem_append, List.mem_singleton]
        split
        · rename_i hb
          exact ⟨fun _ => .inr hb, fun _ => rfl⟩
        · rename_i hb
          rw [hordered'.finished, or_iff_left hb]
      · intro pre b post heq c hc hk
        rw [mark_targets]
        rcases List.append_eq_append_iff.1 heq with ⟨rest, rfl, hpost⟩ | ⟨rest, horder, hpost⟩
        · -- the node itself
          have hempty : rest = [] := by
            cases rest with
            | nil => rfl
            | cons d rest => simp at hpost
          subst hempty
          obtain rfl : a = b := by simpa using (List.cons.inj hpost).1
          rw [List.append_nil]
          exact hedges c hc hk
        · cases rest with
          | nil =>
            obtain rfl : b = a := (List.cons.inj hpost).1
            rw [List.append_nil] at horder
            rw [← horder]
            exact hedges c hc hk
          | cons d rest =>
            obtain rfl : b = d := (List.cons.inj hpost).1
            exact hordered'.edges pre b rest horder c hc hk
    · refine ⟨fun b => ?_, fun b hb => ?_, hgrows.targets⟩
      · rw [mark_status]
        split
        · rename_i hb
          subst hb
          rw [hunseen]
          exact ⟨Visit.noConfusion, Visit.noConfusion⟩
        · rename_i hb
          rw [hgrows.active, mark_status, if_neg hb]
      · rw [mark_status] at hb
        split at hb
        · exact Visit.noConfusion hb
        · rename_i hne
          have hb := hgrows.unseen b hb
          rwa [mark_status, if_neg hne] at hb

/-! ## Cycles -/

omit [DecidableEq α] in
theorem ordered_nil : Ordered succ known ({} : Search α) [] := by
  refine ⟨fun a => ?_, fun pre a post h => ?_⟩
  · simp
  · simp at h

/-- The search from all nodes succeeds, and finishes each of them. -/
theorem searchFrom_spec {fuel : ℕ} (hknown : ∀ b, known b = true → b ∈ nodes) (starts : List α)
    (hstarts : ∀ a ∈ starts, a ∈ nodes) (σ : Search α) (order : List α)
    (hordered : Ordered succ known σ order) (hactive : ∀ a, σ.status a ≠ .active)
    (hfuel : unseenCount nodes σ ≤ fuel) :
    ∃ σ' new, searchFrom succ known fuel σ starts = some σ' ∧
      Ordered succ known σ' (order ++ new) ∧ Grows σ σ' ∧ ∀ a ∈ starts, a ∈ order ++ new := by
  induction starts generalizing σ order with
  | nil => exact ⟨σ, [], rfl, by rwa [List.append_nil], Grows.refl σ, fun a ha => nomatch ha⟩
  | cons a starts ih =>
    have hfirst : ∃ σ' new, (if σ.status a = .unseen then visit succ known fuel σ a else some σ) =
        some σ' ∧ Ordered succ known σ' (order ++ new) ∧ Grows σ σ' ∧ a ∈ order ++ new := by
      cases hstatus : σ.status a with
      | unseen =>
        rw [if_pos rfl]
        obtain ⟨σ', new, hrun, hordered', hgrows, hmem⟩ :=
          visit_spec hknown fuel σ order a hordered hstatus (hstarts a List.mem_cons_self) hfuel
        exact ⟨σ', new, hrun, hordered', hgrows, List.mem_append_right _ hmem⟩
      | active => exact absurd hstatus (hactive a)
      | finished =>
        rw [if_neg Visit.noConfusion]
        exact ⟨σ, [], rfl, by rwa [List.append_nil], Grows.refl σ,
          List.mem_append_left _ ((hordered.finished a).1 hstatus)⟩
    obtain ⟨σ', new, hrun, hordered', hgrows, hmem⟩ := hfirst
    obtain ⟨σ'', new', hrun', hordered'', hgrows', hmem'⟩ :=
      ih (fun b hb => hstarts b (List.mem_cons_of_mem _ hb)) σ' (order ++ new) hordered'
        (fun b hb => hactive b ((hgrows.active b).1 hb)) (hgrows.unseenCount_le.trans hfuel)
    refine ⟨σ'', new ++ new', ?_, by rwa [← List.append_assoc], hgrows.trans hgrows', ?_⟩
    · rw [searchFrom, List.foldlM_cons, hrun]
      exact hrun'
    · intro b hb
      rw [← List.append_assoc]
      rcases List.mem_cons.1 hb with rfl | hb
      · exact List.mem_append_left _ hmem
      · exact hmem' b hb

/-- Along a path that meets no target of a back edge, the place in the order decreases. -/
theorem idxOf_lt_of_isChain {order : List α} (hordered : Ordered succ known σ order)
    (hmem : ∀ b, known b = true → b ∈ order) {a : α} {path : List α} (ha : a ∈ order)
    (hnone : ∀ b ∈ path, b ∉ σ.targets)
    (h : (a :: path).IsChain fun a b => b ∈ succ a ∧ known b = true) :
    ∀ b ∈ path, order.idxOf b < order.idxOf a := by
  induction path generalizing a with
  | nil => exact fun b hb => nomatch hb
  | cons b path ih =>
    rw [List.isChain_cons_cons] at h
    obtain ⟨⟨hb, hk⟩, htail⟩ := h
    have hfirst : order.idxOf b < order.idxOf a := by
      obtain ⟨pre, post, horder, hpre⟩ := List.eq_append_cons_of_mem ha
      have hbefore : b ∈ pre := (hordered.edges pre a post horder b hb hk).resolve_left
        (hnone b List.mem_cons_self)
      rw [horder, List.idxOf_append, if_pos hbefore, List.idxOf_append, if_neg hpre]
      exact Nat.lt_of_lt_of_le (List.idxOf_lt_length_of_mem hbefore) (Nat.le_add_left _ _)
    intro c hc
    rcases List.mem_cons.1 hc with rfl | hc
    · exact hfirst
    · have hrest := ih (hmem b hk) (fun c hc => hnone c (List.mem_cons_of_mem _ hc)) htail c hc
      omega

/-- **Every cycle goes through the target of a back edge.** -/
theorem exists_target_of_cycle (succ : α → List α) (known : α → Bool) (nodes : List α) (fuel : ℕ)
    (hknown : ∀ b, known b = true ↔ b ∈ nodes) (hfuel : nodes.length ≤ fuel) :
    ∃ σ, searchFrom succ known fuel {} nodes = some σ ∧
      ∀ a rest, (a :: rest ++ [a]).IsChain (fun a b => b ∈ succ a ∧ known b = true) →
        ∃ b ∈ a :: rest, b ∈ σ.targets := by
  obtain ⟨σ, order, hrun, hordered, -, hmem⟩ := searchFrom_spec (fun b hb => (hknown b).1 hb) nodes
    (fun _ h => h) {} [] ordered_nil (fun _ => Visit.noConfusion) (List.countP_le_length.trans hfuel)
  rw [List.nil_append] at hordered hmem
  refine ⟨σ, hrun, fun a rest hchain => ?_⟩
  by_contra hnone
  rw [List.cons_append] at hchain
  have hin : ∀ b, known b = true → b ∈ order := fun b hb => hmem b ((hknown b).1 hb)
  have hlast : a ∈ rest ++ [a] := List.mem_append_right _ List.mem_cons_self
  have havoid : ∀ b ∈ rest ++ [a], b ∉ σ.targets := by
    intro b hb htarget
    rcases List.mem_append.1 hb with hb | hb
    · exact hnone ⟨b, List.mem_cons_of_mem _ hb, htarget⟩
    · obtain rfl := List.mem_singleton.1 hb
      exact hnone ⟨b, List.mem_cons_self, htarget⟩
  have hdown := idxOf_lt_of_isChain hordered hin (hin a (known_of_isChain hchain a hlast)) havoid
    hchain a hlast
  omega

/-! ## Targets -/

/-- A node that some path from `root` comes to before it comes to any other node of a cycle through it. -/
def HeadsCycle (edge : α → α → Prop) (root target : α) : Prop :=
  ∃ path loop : List α, (path ++ [target]).head? = some root ∧ (path ++ [target]).IsChain edge ∧
    (target :: loop ++ [target]).IsChain edge ∧ ∀ b ∈ path, b ∉ target :: loop

/-- The edges that the search follows. -/
def Edge (succ : α → List α) (known : α → Bool) (a b : α) : Prop := b ∈ succ a ∧ known b = true

/-- The active nodes are those of a path from the root of the search. -/
structure OnStack (edge : α → α → Prop) (σ : Search α) (stack : List α) : Prop where
  active : ∀ b, σ.status b = .active ↔ b ∈ stack
  nodup : stack.Nodup
  path : stack.IsChain edge

omit [DecidableEq α] in
/-- An edge back to the stack closes a cycle. -/
theorem OnStack.headsCycle {edge : α → α → Prop} {stack : List α} {root b : α}
    (h : OnStack edge σ (stack ++ [a])) (hroot : (stack ++ [a]).head? = some root) (hb : b ∈ stack ++ [a])
    (hedge : edge a b) : HeadsCycle edge root b := by
  obtain ⟨path, loop, hstack⟩ := List.append_of_mem hb
  have hlast : (b :: loop).getLast? = some a := by
    have := congrArg List.getLast? hstack
    rwa [List.getLast?_concat, List.getLast?_append_of_ne_nil _ (List.cons_ne_nil _ _), eq_comm] at this
  have hnodup := h.nodup
  have hpath := h.path
  rw [hstack] at hroot hnodup hpath
  refine ⟨path, loop, ?_, ?_, ?_, ?_⟩
  · cases path with
    | nil => exact hroot
    | cons c path => exact hroot
  · rw [← List.singleton_append, ← List.append_assoc] at hpath
    exact (List.isChain_append.1 hpath).1
  · refine List.isChain_append.2 ⟨(List.isChain_append.1 hpath).2.1, List.isChain_singleton b, ?_⟩
    intro c hc d hd
    obtain rfl : a = c := Option.some.inj (hlast.symm.trans hc)
    obtain rfl : b = d := Option.some.inj hd
    exact hedge
  · exact fun c hc hmem => (List.nodup_append.1 hnodup).2.2 c hc c hmem rfl

/-- What a part of the search leaves of the stack, and the targets that it adds. -/
structure Targeted (edge : α → α → Prop) (stack : List α) (root : α) (σ σ' : Search α) : Prop where
  stack : OnStack edge σ' stack
  unseen : ∀ b, σ'.status b = .unseen → σ.status b = .unseen
  targets : ∀ t ∈ σ'.targets, t ∈ σ.targets ∨ HeadsCycle edge root t ∧ σ'.status t ≠ .unseen

omit [DecidableEq α] in
theorem Targeted.refl {edge : α → α → Prop} {stack : List α} {root : α} (h : OnStack edge σ stack) :
    Targeted edge stack root σ σ := ⟨h, fun _ hb => hb, fun _ ht => .inl ht⟩

omit [DecidableEq α] in
theorem Targeted.trans {edge : α → α → Prop} {stack : List α} {root : α} (h : Targeted edge stack root σ σ')
    (h' : Targeted edge stack root σ' σ'') : Targeted edge stack root σ σ'' where
  stack := h'.stack
  unseen b hb := h.unseen b (h'.unseen b hb)
  targets t ht := by
    rcases h'.targets t ht with ht | ht
    · exact (h.targets t ht).imp_right fun hhead => ⟨hhead.1, fun hb => hhead.2 (h'.unseen t hb)⟩
    · exact .inr ht

theorem explore_targeted {fuel : ℕ} {stack : List α} {root : α}
    (hroot : (stack ++ [a]).head? = some root)
    (hvisit : ∀ (σ σ' : Search α) (b : α), visit succ known fuel σ b = some σ' → σ.status b = .unseen →
      OnStack (Edge succ known) σ (stack ++ [a]) → Edge succ known a b →
        Targeted (Edge succ known) (stack ++ [a]) root σ σ')
    (edges : List α) (hedges : ∀ b ∈ edges, b ∈ succ a) (h : OnStack (Edge succ known) σ (stack ++ [a]))
    (hrun : edges.foldlM (explore known (visit succ known fuel)) σ = some σ') :
    Targeted (Edge succ known) (stack ++ [a]) root σ σ' := by
  induction edges generalizing σ with
  | nil =>
    obtain rfl := Option.some.inj hrun
    exact .refl h
  | cons b edges ih =>
    rw [List.foldlM_cons] at hrun
    obtain ⟨σ₁, hfirst, hrest⟩ := Option.bind_eq_some_iff.1 hrun
    have hstep : Targeted (Edge succ known) (stack ++ [a]) root σ σ₁ := by
      unfold explore at hfirst
      cases hb : known b with
      | false =>
        rw [hb] at hfirst
        obtain rfl := Option.some.inj hfirst
        exact .refl h
      | true =>
        rw [hb] at hfirst
        have hedge : Edge succ known a b := ⟨hedges b List.mem_cons_self, hb⟩
        cases hstatus : σ.status b with
        | active =>
          rw [hstatus] at hfirst
          obtain rfl := Option.some.inj hfirst
          refine ⟨⟨h.active, h.nodup, h.path⟩, fun _ hc => hc, fun t ht => ?_⟩
          rcases List.mem_cons.1 ht with rfl | ht
          · refine .inr ⟨h.headsCycle hroot ((h.active t).1 hstatus) hedge, ?_⟩
            rw [hstatus]
            exact Visit.noConfusion
          · exact .inl ht
        | unseen =>
          rw [hstatus] at hfirst
          exact hvisit σ σ₁ b hfirst hstatus h hedge
        | finished =>
          rw [hstatus] at hfirst
          obtain rfl := Option.some.inj hfirst
          exact .refl h
    exact hstep.trans (ih (fun c hc => hedges c (List.mem_cons_of_mem _ hc)) hstep.stack hrest)

/-- **A visit adds heads of cycles**, and leaves the stack as it was. -/
theorem visit_targeted {fuel : ℕ} {stack : List α} {root : α} (hrun : visit succ known fuel σ a = some σ')
    (hunseen : σ.status a = .unseen) (h : OnStack (Edge succ known) σ stack)
    (hpath : (stack ++ [a]).IsChain (Edge succ known)) (hroot : (stack ++ [a]).head? = some root) :
    Targeted (Edge succ known) stack root σ σ' := by
  induction fuel generalizing σ σ' a stack with
  | zero => cases hrun
  | succ fuel ih =>
    obtain ⟨σ₁, hedges, hdone⟩ := Option.bind_eq_some_iff.1 hrun
    obtain rfl := Option.some.inj hdone
    have hfresh : a ∉ stack := by
      rw [← h.active, hunseen]
      exact Visit.noConfusion
    have hmarked : OnStack (Edge succ known) (σ.mark a .active) (stack ++ [a]) := by
      refine ⟨fun b => ?_, ?_, hpath⟩
      · rw [mark_status, List.mem_append, List.mem_singleton]
        split
        · rename_i hb
          exact ⟨fun _ => .inr hb, fun _ => rfl⟩
        · rename_i hb
          rw [h.active, or_iff_left hb]
      · rw [← List.concat_eq_append]
        exact List.Nodup.concat hfresh h.nodup
    have hrest := explore_targeted hroot (fun τ τ' b hb hnew hon hedge =>
      ih hb hnew hon (List.isChain_append.2 ⟨hon.path, List.isChain_singleton b, fun c hc d hd => by
        obtain rfl : a = c := Option.some.inj (List.getLast?_concat.symm.trans hc)
        obtain rfl : b = d := Option.some.inj hd
        exact hedge⟩) (by
        rw [List.head?_append, hroot]
        rfl)) (succ a) (fun _ hb => hb) hmarked hedges
    refine ⟨⟨fun b => ?_, h.nodup, h.path⟩, fun b hb => ?_, fun t ht => ?_⟩
    · rw [mark_status]
      split
      · rename_i hb
        subst hb
        exact ⟨fun hv => Visit.noConfusion hv, fun hmem => absurd hmem hfresh⟩
      · rename_i hb
        rw [hrest.stack.active, List.mem_append, List.mem_singleton, or_iff_left hb]
    · rw [mark_status] at hb
      split at hb
      · exact Visit.noConfusion hb
      · rename_i hne
        have hb := hrest.unseen b hb
        rwa [mark_status, if_neg hne] at hb
    · refine (hrest.targets t ht).imp_right fun hhead => ⟨hhead.1, fun hb => ?_⟩
      rw [mark_status] at hb
      split at hb
      · exact Visit.noConfusion hb
      · exact hhead.2 hb

/-- The roots of a search were not seen when it began. -/
theorem searchFrom_targets {fuel : ℕ} {starts : List α} (h : OnStack (Edge succ known) σ [])
    (hrun : searchFrom succ known fuel σ starts = some σ') : ∀ t ∈ σ'.targets, t ∈ σ.targets ∨
      ∃ root ∈ starts, σ.status root = .unseen ∧ HeadsCycle (Edge succ known) root t := by
  induction starts generalizing σ with
  | nil =>
    obtain rfl := Option.some.inj hrun
    exact fun t ht => .inl ht
  | cons a starts ih =>
    rw [searchFrom, List.foldlM_cons] at hrun
    obtain ⟨σ₁, hfirst, hrest⟩ := Option.bind_eq_some_iff.1 hrun
    intro t ht
    by_cases hunseen : σ.status a = .unseen
    · rw [if_pos hunseen] at hfirst
      have hvisit := visit_targeted hfirst hunseen h (List.isChain_singleton a) rfl
      rcases ih hvisit.stack hrest t ht with ht | ⟨root, hroot, hnew, hhead⟩
      · exact (hvisit.targets t ht).imp_right fun hhead => ⟨a, List.mem_cons_self, hunseen, hhead.1⟩
      · exact .inr ⟨root, List.mem_cons_of_mem _ hroot, hvisit.unseen root hnew, hhead⟩
    · rw [if_neg hunseen] at hfirst
      obtain rfl := Option.some.inj hfirst
      refine (ih h hrest t ht).imp_right ?_
      rintro ⟨root, hroot, hnew⟩
      exact ⟨root, List.mem_cons_of_mem _ hroot, hnew⟩

/-- **The targets of the back edges are heads of cycles**: some path from the first node, or from a node that
it does not lead to, comes to them before it comes to any other node of a cycle. -/
theorem headsCycle_of_target {first : α} {rest : List α} {fuel : ℕ}
    (hknown : ∀ b, known b = true → b ∈ first :: rest) (hfuel : (first :: rest).length ≤ fuel)
    (hrun : searchFrom succ known fuel {} (first :: rest) = some σ) (t : α) (ht : t ∈ σ.targets) :
    ∃ root ∈ first :: rest, (root = first ∨ ¬Relation.ReflTransGen (Edge succ known) first root) ∧
      HeadsCycle (Edge succ known) root t := by
  have hempty : OnStack (Edge succ known) ({} : Search α) [] :=
    ⟨fun b => ⟨Visit.noConfusion, fun h => by cases h⟩, List.nodup_nil, List.IsChain.nil⟩
  obtain ⟨σ₁, order, hvisit, hordered, -, hmem⟩ := visit_spec hknown fuel {} [] first ordered_nil rfl
    List.mem_cons_self (List.countP_le_length.trans hfuel)
  rw [List.nil_append] at hordered
  have hfirst := visit_targeted hvisit rfl hempty (List.isChain_singleton first) rfl
  have hrest : searchFrom succ known fuel σ₁ rest = some σ := by
    rw [searchFrom, List.foldlM_cons, if_pos rfl, hvisit] at hrun
    exact hrun
  rcases searchFrom_targets hfirst.stack hrest t ht with ht | ⟨root, hroot, hnew, hhead⟩
  · rcases hfirst.targets t ht with ht | ht
    · cases ht
    · exact ⟨first, List.mem_cons_self, .inl rfl, ht.1⟩
  · refine ⟨root, List.mem_cons_of_mem _ hroot, .inr fun hreach => ?_, hhead⟩
    -- what the first node leads to is finished with it
    have hclosed : ∀ b, Relation.ReflTransGen (Edge succ known) first b → b ∈ order := by
      intro b hb
      induction hb with
      | refl => exact hmem
      | @tail b c _ hedge ih =>
        obtain ⟨pre, post, horder⟩ := List.append_of_mem ih
        rcases hordered.edges pre b post horder c hedge.1 hedge.2 with htarget | hpre
        · rw [← hordered.finished]
          rcases hfirst.targets c htarget with htarget | ⟨-, hseen⟩
          · cases htarget
          · cases hstatus : σ₁.status c with
            | unseen => exact absurd hstatus hseen
            | active => exact absurd ((hfirst.stack.active c).1 hstatus) List.not_mem_nil
            | finished => rfl
        · rw [horder]
          exact List.mem_append_left _ hpre
    have hdone := (hordered.finished root).2 (hclosed root hreach)
    rw [hnew] at hdone
    cases hdone

end Search

end SemantiST.Lib
