import Mathlib.Data.List.Sort
import Mathlib.Logic.Relation
import Mathlib.Order.MinMax
import SemantiST.Lib.Worklist

/-!
# Strongly connected components

Tarjan's search: a node is numbered when it is met and stays on a stack until its component is known.
The components it gives are the classes of nodes that reach each other (`visitAll_spec`).
-/

namespace SemantiST.Lib

/-- A search under way. -/
structure Tarjan (α : Type) where
  index : ℕ := 0
  indices : α → Option ℕ := fun _ => none
  lowlinks : α → ℕ := fun _ => 0
  stack : List α := []
  onStack : α → Bool := fun _ => false
  components : List (List α) := []

namespace Tarjan

variable {α : Type}

def Seen (σ : Tarjan α) (a : α) : Prop := σ.indices a ≠ none

/-- The number of a node that was seen. -/
def ord (σ : Tarjan α) (a : α) : ℕ := (σ.indices a).getD 0

theorem ord_eq {σ : Tarjan α} {a : α} {n : ℕ} (h : σ.indices a = some n) : σ.ord a = n := by
  rw [ord, h]
  rfl

variable [LinearOrder α]

def enter (σ : Tarjan α) (a : α) : Tarjan α :=
  { σ with
    index := σ.index + 1
    indices := Function.update σ.indices a (some σ.index)
    lowlinks := Function.update σ.lowlinks a σ.index
    stack := a :: σ.stack
    onStack := Function.update σ.onStack a true }

def lower (σ : Tarjan α) (a : α) (low : ℕ) : Tarjan α :=
  { σ with lowlinks := Function.update σ.lowlinks a (min (σ.lowlinks a) low) }

/-- The edge from `a` to `b` is explored. -/
def explore (next : Tarjan α → α → Option (Tarjan α)) (a : α) (σ : Tarjan α) (b : α) : Option (Tarjan α) :=
  match σ.indices b with
  | none => (next σ b).map fun σ => σ.lower a (σ.lowlinks b)
  | some index => some (if σ.onStack b then σ.lower a index else σ)

/-- What is popped up to `a`, and what stays. -/
def popTo (a : α) : List α → List α × List α
  | [] => ([], [])
  | b :: stack =>
    if b = a then ([b], stack)
    else
      let (component, rest) := popTo a stack
      (b :: component, rest)

/-- All edges of `a` are explored. -/
def finish (σ : Tarjan α) (a : α) : Tarjan α :=
  if σ.indices a ≠ some (σ.lowlinks a) then σ
  else
    let (component, rest) := popTo a σ.stack
    { σ with
      stack := rest
      onStack := fun b => if b ∈ component then false else σ.onStack b
      components := σ.components ++ [component.insertionSort (· ≤ ·)] }

variable (succ : α → List α)

def visit : ℕ → Tarjan α → α → Option (Tarjan α)
  | 0, _, _ => none
  | fuel + 1, σ, a => ((succ a).foldlM (explore (visit fuel) a) (σ.enter a)).map fun σ => σ.finish a

/-- The search from each of the nodes in turn. -/
def visitAll (fuel : ℕ) (σ : Tarjan α) (nodes : List α) : Option (Tarjan α) :=
  nodes.foldlM (fun σ a => if σ.indices a = none then visit succ fuel σ a else some σ) σ

/-! ## The invariant -/

def Reaches (a b : α) : Prop := Relation.ReflTransGen (fun a b => b ∈ succ a) a b

/-- The state of a search that still has edges of the `active` nodes to explore. -/
structure Sound (active : List α) (σ : Tarjan α) : Prop where
  order : σ.stack.Pairwise fun a b => σ.ord b < σ.ord a
  bound : ∀ a ∈ σ.stack, σ.ord a < σ.index
  onStack : ∀ a, σ.onStack a = true ↔ a ∈ σ.stack
  seen : ∀ a, σ.Seen a ↔ a ∈ σ.stack ∨ a ∈ σ.components.flatten
  disjoint : ∀ a ∈ σ.stack, a ∉ σ.components.flatten
  nodup : σ.components.flatten.Nodup
  active_stack : active ⊆ σ.stack
  edges : ∀ a, σ.Seen a → a ∉ active → ∀ b ∈ succ a, σ.Seen b
  closed : ∀ a ∈ σ.components.flatten, ∀ b ∈ succ a, b ∈ σ.components.flatten
  up : ∀ a ∈ active, ∀ b ∈ σ.stack, σ.ord a ≤ σ.ord b → Reaches succ a b
  down : ∀ b ∈ σ.stack, ∃ a ∈ active, σ.ord a ≤ σ.ord b ∧ Reaches succ b a
  strong : ∀ c ∈ σ.components, c ≠ [] ∧ ∀ a ∈ c, ∀ b, b ∈ c ↔ Reaches succ a b ∧ Reaches succ b a

/-- What has happened since `a` was met in `σ`: the edges in `done` are explored. -/
structure Progress (active done : List α) (a : α) (σ σ' : Tarjan α) (new : List α) : Prop where
  sound : Sound succ active σ'
  fresh : σ.indices a = none
  indices : ∀ b, σ.Seen b → σ'.indices b = σ.indices b
  lowlinks : ∀ b, σ.Seen b → σ'.lowlinks b = σ.lowlinks b
  stack : σ'.stack = new ++ σ.stack
  reached : ∀ b, σ'.Seen b → σ.Seen b ∨ Reaches succ a b
  number : σ'.indices a = some σ.index
  low_le : σ'.lowlinks a ≤ σ.index
  low_mem : (∃ b ∈ σ'.stack, σ'.ord b = σ'.lowlinks a ∧ Reaches succ a b) ∨ σ'.lowlinks a = σ.index
  done_seen : ∀ b ∈ done, σ'.Seen b
  low : ∀ b ∈ new, ∀ c ∈ succ b, (b = a → c ∈ done) → c ∈ σ.stack → σ'.lowlinks a ≤ σ'.ord c

variable {succ} {active done new : List α} {σ σ' : Tarjan α} {a b c : α}

section

omit [LinearOrder α]

theorem Sound.seen_of_stack (h : Sound succ active σ) (hb : b ∈ σ.stack) : σ.Seen b :=
  (h.seen b).2 (.inl hb)

/-- Components are not left. -/
theorem Sound.closed_reaches (h : Sound succ active σ) (ha : a ∈ σ.components.flatten)
    (hreach : Reaches succ a b) : b ∈ σ.components.flatten := by
  induction hreach with
  | refl => exact ha
  | tail _ hedge ih => exact h.closed _ ih _ hedge

theorem Sound.stack_nodup (h : Sound succ active σ) : σ.stack.Nodup :=
  h.order.imp fun hlt => by
    rintro rfl
    exact absurd hlt (lt_irrefl _)

theorem Progress.seen (h : Progress succ active done a σ σ' new) (hb : σ.Seen b) : σ'.Seen b := by
  rw [Seen, h.indices b hb]
  exact hb

theorem Progress.ord (h : Progress succ active done a σ σ' new) (hb : σ.Seen b) : σ'.ord b = σ.ord b := by
  rw [Tarjan.ord, Tarjan.ord, h.indices b hb]

theorem Progress.ne_of_seen (h : Progress succ active done a σ σ' new) (hb : σ.Seen b) : b ≠ a := by
  rintro rfl
  exact hb h.fresh

end

/-! ## Lowering -/

@[simp] theorem lower_indices (σ : Tarjan α) (a : α) (n : ℕ) : (σ.lower a n).indices = σ.indices := rfl

@[simp] theorem lower_stack (σ : Tarjan α) (a : α) (n : ℕ) : (σ.lower a n).stack = σ.stack := rfl

@[simp] theorem lower_ord (σ : Tarjan α) (a : α) (n : ℕ) : (σ.lower a n).ord = σ.ord := rfl

theorem lower_lowlinks_self (σ : Tarjan α) (a : α) (n : ℕ) :
    (σ.lower a n).lowlinks a = min (σ.lowlinks a) n := Function.update_self ..

theorem lower_lowlinks_of_ne (hne : b ≠ a) (n : ℕ) : (σ.lower a n).lowlinks b = σ.lowlinks b :=
  Function.update_of_ne hne ..

theorem Sound.lower (h : Sound succ active σ) (a : α) (n : ℕ) : Sound succ active (σ.lower a n) :=
  ⟨h.order, h.bound, h.onStack, h.seen, h.disjoint, h.nodup, h.active_stack, h.edges, h.closed, h.up, h.down,
    h.strong⟩

/-! ## Meeting a node -/

theorem enter_ord_self (σ : Tarjan α) (a : α) : (σ.enter a).ord a = σ.index :=
  ord_eq (Function.update_self ..)

theorem enter_ord_of_ne (hne : b ≠ a) : (σ.enter a).ord b = σ.ord b := by
  rw [ord, ord, show (σ.enter a).indices b = σ.indices b from Function.update_of_ne hne ..]

theorem enter_seen : (σ.enter a).Seen b ↔ b = a ∨ σ.Seen b := by
  unfold Seen
  by_cases hb : b = a
  · subst hb
    rw [show (σ.enter b).indices b = some σ.index from Function.update_self ..]
    simp
  · rw [show (σ.enter a).indices b = σ.indices b from Function.update_of_ne hb .., or_iff_right hb]

omit [LinearOrder α] in
theorem Sound.ne_of_stack (h : Sound succ active σ) (ha : σ.indices a = none) (hb : b ∈ σ.stack) : b ≠ a := by
  rintro rfl
  exact h.seen_of_stack hb ha

theorem enter_sound (h : Sound succ active σ) (ha : σ.indices a = none)
    (hactive : ∀ b ∈ active, Reaches succ b a) : Sound succ (a :: active) (σ.enter a) := by
  have hne {b : α} (hb : b ∈ σ.stack) : b ≠ a := h.ne_of_stack ha hb
  have hord {b : α} (hb : b ∈ σ.stack) : (σ.enter a).ord b = σ.ord b := enter_ord_of_ne (hne hb)
  have hfresh : a ∉ σ.components.flatten := fun hmem => (h.seen a).2 (.inr hmem) ha
  refine ⟨?_, ?_, ?_, ?_, ?_, h.nodup, ?_, ?_, h.closed, ?_, ?_, h.strong⟩
  · refine List.pairwise_cons.2 ⟨fun b hb => ?_, h.order.imp_of_mem fun {b c} hb hc hlt => ?_⟩
    · rw [enter_ord_self, hord hb]
      exact h.bound b hb
    · rw [hord hb, hord hc]
      exact hlt
  · intro b hb
    change _ < σ.index + 1
    rcases List.mem_cons.1 hb with rfl | hb
    · rw [enter_ord_self]
      exact Nat.lt_succ_self _
    · rw [hord hb]
      exact Nat.lt_succ_of_lt (h.bound b hb)
  · intro b
    change Function.update σ.onStack a true b = true ↔ b ∈ a :: σ.stack
    by_cases hb : b = a
    · subst hb
      rw [Function.update_self]
      exact iff_of_true rfl List.mem_cons_self
    · rw [Function.update_of_ne hb, h.onStack, List.mem_cons, or_iff_right hb]
  · intro b
    rw [enter_seen, h.seen]
    change _ ↔ b ∈ a :: σ.stack ∨ b ∈ σ.components.flatten
    rw [List.mem_cons, or_assoc]
  · intro b hb
    rcases List.mem_cons.1 hb with rfl | hb
    · exact hfresh
    · exact h.disjoint b hb
  · exact List.cons_subset_cons a h.active_stack
  · intro b hb hnot c hc
    rw [List.mem_cons, not_or] at hnot
    exact enter_seen.2 (.inr (h.edges b ((enter_seen.1 hb).resolve_left hnot.1) hnot.2 c hc))
  · intro b hb c hc hle
    rcases List.mem_cons.1 hb with rfl | hb'
    · rcases List.mem_cons.1 hc with rfl | hc'
      · exact Relation.ReflTransGen.refl
      · rw [enter_ord_self, hord hc'] at hle
        exact absurd (h.bound c hc') (not_lt_of_ge hle)
    · rcases List.mem_cons.1 hc with rfl | hc'
      · exact hactive b hb'
      · rw [hord (h.active_stack hb'), hord hc'] at hle
        exact h.up b hb' c hc' hle
  · intro b hb
    rcases List.mem_cons.1 hb with rfl | hb
    · exact ⟨b, List.mem_cons_self, le_refl _, Relation.ReflTransGen.refl⟩
    · obtain ⟨c, hc, hle, hreach⟩ := h.down b hb
      refine ⟨c, List.mem_cons_of_mem a hc, ?_, hreach⟩
      rwa [hord (h.active_stack hc), hord hb]

theorem enter_progress (h : Sound succ active σ) (ha : σ.indices a = none)
    (hactive : ∀ b ∈ active, Reaches succ b a) :
    Progress succ (a :: active) [] a σ (σ.enter a) ([] ++ [a]) := by
  have hne {b : α} (hb : σ.Seen b) : b ≠ a := by
    rintro rfl
    exact hb ha
  refine ⟨enter_sound h ha hactive, ha, fun b hb => Function.update_of_ne (hne hb) ..,
    fun b hb => Function.update_of_ne (hne hb) .., rfl, fun b hb => ?_, Function.update_self ..,
    le_of_eq (Function.update_self ..), .inr (Function.update_self ..), fun b hb => (nomatch hb), ?_⟩
  · rcases enter_seen.1 hb with rfl | hb
    · exact .inr Relation.ReflTransGen.refl
    · exact .inl hb
  · intro b hb c hc hdone
    exact nomatch hdone (List.mem_singleton.1 hb)

/-! ## Exploring the edges of a node -/

/-- An edge to a node that was met before. -/
theorem explore_seen {n : ℕ} (h : Progress succ (a :: active) done a σ σ' new) (hedge : b ∈ succ a)
    (hb : σ'.indices b = some n) :
    Progress succ (a :: active) (done ++ [b]) a σ (if σ'.onStack b then σ'.lower a n else σ') new := by
  have hseen : ∀ c ∈ done ++ [b], σ'.Seen c := by
    intro c hc
    rcases List.mem_append.1 hc with hc | hc
    · exact h.done_seen c hc
    · rw [List.mem_singleton.1 hc, Seen, hb]
      exact Option.some_ne_none n
  have hold : ∀ d ∈ new, ∀ c ∈ succ d, (d = a → c ∈ done ++ [b]) → c ∈ σ.stack →
      σ'.lowlinks a ≤ σ'.ord c ∨ c = b := by
    intro d hd c hc hdone hstack
    by_cases hcb : c = b
    · exact .inr hcb
    · refine .inl (h.low d hd c hc (fun heq => ?_) hstack)
      exact (List.mem_append.1 (hdone heq)).resolve_right fun hmem => hcb (List.mem_singleton.1 hmem)
  by_cases hon : σ'.onStack b = true
  · rw [if_pos hon]
    have hstack : b ∈ σ'.stack := (h.sound.onStack b).1 hon
    refine ⟨h.sound.lower a n, h.fresh, h.indices, fun c hc => ?_, h.stack, h.reached, h.number, ?_, ?_, hseen, ?_⟩
    · rw [lower_lowlinks_of_ne (h.ne_of_seen hc)]
      exact h.lowlinks c hc
    · rw [lower_lowlinks_self]
      exact (min_le_left _ _).trans h.low_le
    · rw [lower_lowlinks_self]
      rcases min_choice (σ'.lowlinks a) n with hmin | hmin
      · rw [hmin]
        exact h.low_mem
      · rw [hmin]
        exact .inl ⟨b, hstack, ord_eq hb, .single hedge⟩
    · intro d hd c hc hdone hmem
      rw [lower_lowlinks_self, lower_ord]
      rcases hold d hd c hc hdone hmem with hle | rfl
      · exact (min_le_left _ _).trans hle
      · rw [ord_eq hb]
        exact min_le_right _ _
  · rw [if_neg hon]
    refine ⟨h.sound, h.fresh, h.indices, h.lowlinks, h.stack, h.reached, h.number, h.low_le, h.low_mem, hseen, ?_⟩
    intro d hd c hc hdone hmem
    refine (hold d hd c hc hdone hmem).resolve_right ?_
    rintro rfl
    apply hon
    rw [h.sound.onStack, h.stack]
    exact List.mem_append_right new hmem

/-- An edge to a node that is met now. -/
theorem explore_fresh {σ'' : Tarjan α} {new' : List α} (h : Progress succ (a :: active) done a σ σ' new)
    (hedge : b ∈ succ a)
    (hvisit : Progress succ (a :: active) (succ b) b σ' σ'' new') :
    Progress succ (a :: active) (done ++ [b]) a σ (σ''.lower a (σ''.lowlinks b)) (new' ++ new) := by
  have ha : σ'.Seen a := by
    rw [Seen, h.number]
    exact Option.some_ne_none _
  have hlow : σ''.lowlinks a = σ'.lowlinks a := hvisit.lowlinks a ha
  have hbseen : σ''.Seen b := by
    rw [Seen, hvisit.number]
    exact Option.some_ne_none _
  refine ⟨hvisit.sound.lower a _, h.fresh, fun c hc => ?_, fun c hc => ?_, ?_, fun c hc => ?_, ?_, ?_, ?_,
    fun c hc => ?_, fun d hd c hc hdone hmem => ?_⟩
  · rw [lower_indices, hvisit.indices c (h.seen hc), h.indices c hc]
  · rw [lower_lowlinks_of_ne (h.ne_of_seen hc), hvisit.lowlinks c (h.seen hc), h.lowlinks c hc]
  · rw [lower_stack, hvisit.stack, h.stack, List.append_assoc]
  · rcases hvisit.reached c hc with hc | hc
    · exact h.reached c hc
    · exact .inr (.head hedge hc)
  · rw [lower_indices, hvisit.indices a ha, h.number]
  · rw [lower_lowlinks_self, hlow]
    exact (min_le_left _ _).trans h.low_le
  · -- the least number is the one known before, or the one that `b` reaches
    rw [lower_lowlinks_self, hlow, lower_stack, lower_ord]
    have hbefore : (∃ c ∈ σ''.stack, σ''.ord c = σ'.lowlinks a ∧ Reaches succ a c) ∨
        σ'.lowlinks a = σ.index := by
      refine h.low_mem.imp_left fun ⟨c, hc, hord, hreach⟩ => ⟨c, ?_, ?_, hreach⟩
      · rw [hvisit.stack]
        exact List.mem_append_right new' hc
      · rw [hvisit.ord (h.sound.seen_of_stack hc), hord]
    rcases min_choice (σ'.lowlinks a) (σ''.lowlinks b) with hmin | hmin
    · rw [hmin]
      exact hbefore
    · rcases hvisit.low_mem with ⟨c, hc, hord, hreach⟩ | hindex
      · rw [hmin]
        exact .inl ⟨c, hc, hord, .head hedge hreach⟩
      · have hlt := h.sound.bound a (h.sound.active_stack List.mem_cons_self)
        rw [ord_eq h.number] at hlt
        have hle := h.low_le
        rw [hindex, min_eq_left (by omega)]
        exact hbefore
  · rcases List.mem_append.1 hc with hc | hc
    · exact hvisit.seen (h.done_seen c hc)
    · rwa [List.mem_singleton.1 hc]
  · rw [lower_lowlinks_self, lower_ord]
    have hcstack : c ∈ σ'.stack := by
      rw [h.stack]
      exact List.mem_append_right new hmem
    have hcseen := h.sound.seen_of_stack hcstack
    rcases List.mem_append.1 hd with hd | hd
    · exact (min_le_right _ _).trans (hvisit.low d hd c hc (fun heq => heq ▸ hc) hcstack)
    · rw [hvisit.ord hcseen, hlow]
      refine (min_le_left _ _).trans (h.low d hd c hc (fun heq => ?_) hmem)
      refine (List.mem_append.1 (hdone heq)).resolve_right fun hcb => ?_
      rw [List.mem_singleton.1 hcb] at hcseen
      exact hcseen hvisit.fresh

/-! ## Leaving a node -/

theorem popTo_append {n rest : List α} (hn : a ∉ n) : popTo a (n ++ a :: rest) = (n ++ [a], rest) := by
  induction n with
  | nil => simp [popTo]
  | cons b n ih =>
    rw [List.mem_cons, not_or] at hn
    rw [List.cons_append, popTo, if_neg (Ne.symm hn.1), ih hn.2]
    rfl

/-- A node that reaches an earlier one stays on the stack. -/
theorem finish_stay (h : Progress succ (a :: active) (succ a) a σ σ' new)
    (hlow : σ'.lowlinks a ≠ σ.index) : Progress succ active (succ a) a σ σ' new := by
  refine ⟨⟨h.sound.order, h.sound.bound, h.sound.onStack, h.sound.seen, h.sound.disjoint, h.sound.nodup,
    fun b hb => h.sound.active_stack (List.mem_cons_of_mem a hb), fun b hb hnot => ?_, h.sound.closed,
    fun b hb => h.sound.up b (List.mem_cons_of_mem a hb), fun b hb => ?_, h.sound.strong⟩, h.fresh, h.indices,
    h.lowlinks, h.stack, h.reached, h.number, h.low_le, h.low_mem, h.done_seen, h.low⟩
  · by_cases hba : b = a
    · subst hba
      exact h.done_seen
    · exact h.sound.edges b hb fun hmem => (List.mem_cons.1 hmem).elim hba hnot
  · obtain ⟨c, hc, hle, hreach⟩ := h.sound.down b hb
    rcases List.mem_cons.1 hc with rfl | hc
    · -- what it reaches has an active node below
      obtain ⟨d, hd, hdord, hdreach⟩ := h.low_mem.resolve_right hlow
      obtain ⟨e, he, hele, hereach⟩ := h.sound.down d hd
      have hlow_le := h.low_le
      have hnumber := ord_eq h.number
      rcases List.mem_cons.1 he with rfl | he
      · omega
      · exact ⟨e, he, by omega, hreach.trans (hdreach.trans hereach)⟩
    · exact ⟨c, hc, hle, hreach⟩

section Root

variable {n : List α}

/-- What stands on the stack from `a` up, when nothing there reaches an earlier node: its edges do not
lead below `a`. -/
theorem segment_closed (h : Progress succ (a :: active) (succ a) a σ σ' (n ++ [a])) (hsound : Sound succ active σ)
    (hlow : σ'.lowlinks a = σ.index) (hb : b ∈ n ++ [a]) (hc : c ∈ succ b) :
    c ∈ n ++ [a] ∨ c ∈ σ'.components.flatten := by
  have hstack : b ∈ σ'.stack := by
    rw [h.stack]
    exact List.mem_append_left _ hb
  have hnodup := h.sound.stack_nodup
  rw [h.stack] at hnodup
  have hseen : σ'.Seen c := by
    by_cases hba : b = a
    · subst hba
      exact h.done_seen c hc
    · refine h.sound.edges b (h.sound.seen_of_stack hstack) (fun hmem => ?_) c hc
      have hbelow := hsound.active_stack ((List.mem_cons.1 hmem).resolve_left hba)
      exact (List.nodup_append.1 hnodup).2.2 b hb b hbelow rfl
  refine ((h.sound.seen c).1 hseen).imp_left fun hcstack => ?_
  rw [h.stack] at hcstack
  refine (List.mem_append.1 hcstack).resolve_right fun hbelow => ?_
  have hle := h.low b hb c hc (fun heq => heq ▸ hc) hbelow
  rw [hlow, h.ord (hsound.seen_of_stack hbelow)] at hle
  exact absurd (hsound.bound c hbelow) (not_lt_of_ge hle)

theorem segment_reaches (h : Progress succ (a :: active) (succ a) a σ σ' (n ++ [a]))
    (hsound : Sound succ active σ) (hlow : σ'.lowlinks a = σ.index) (hb : b ∈ n ++ [a])
    (hreach : Reaches succ b c) : c ∈ n ++ [a] ∨ c ∈ σ'.components.flatten := by
  induction hreach with
  | refl => exact .inl hb
  | tail _ hedge ih =>
    rcases ih with hmem | hmem
    · exact segment_closed h hsound hlow hmem hedge
    · exact .inr (h.sound.closed _ hmem _ hedge)

/-- **What stands on the stack from a root up is a component.** -/
theorem segment_strong (h : Progress succ (a :: active) (succ a) a σ σ' (n ++ [a]))
    (hsound : Sound succ active σ) (hlow : σ'.lowlinks a = σ.index) (hb : b ∈ n ++ [a]) :
    c ∈ n ++ [a] ↔ Reaches succ b c ∧ Reaches succ c b := by
  have hstack {d : α} (hd : d ∈ n ++ [a]) : d ∈ σ'.stack := by
    rw [h.stack]
    exact List.mem_append_left _ hd
  have hroot : a ∈ n ++ [a] := List.mem_append_right n List.mem_cons_self
  have horder := h.sound.order
  have hnodup := h.sound.stack_nodup
  rw [h.stack] at horder hnodup
  have hdown {d : α} (hd : d ∈ n ++ [a]) : Reaches succ d a := by
    obtain ⟨e, he, -, hreach⟩ := h.sound.down d (hstack hd)
    rcases List.mem_cons.1 he with rfl | he
    · exact hreach
    · have hbelow := hsound.active_stack he
      have he' := h.sound.active_stack (List.mem_cons_of_mem a he)
      rcases segment_reaches h hsound hlow hd hreach with hmem | hmem
      · exact absurd rfl ((List.nodup_append.1 hnodup).2.2 e hmem e hbelow)
      · exact absurd hmem (h.sound.disjoint e he')
  have hup {d : α} (hd : d ∈ n ++ [a]) : Reaches succ a d := by
    refine h.sound.up a List.mem_cons_self d (hstack hd) ?_
    rcases List.mem_append.1 hd with hd | hd
    · exact le_of_lt ((List.pairwise_append.1 (List.pairwise_append.1 horder).1).2.2 d hd a List.mem_cons_self)
    · rw [List.mem_singleton.1 hd]
  refine ⟨fun hc => ⟨(hdown hb).trans (hup hc), (hdown hc).trans (hup hb)⟩, fun ⟨hbc, hcb⟩ => ?_⟩
  refine (segment_reaches h hsound hlow hb hbc).resolve_right fun hmem => ?_
  exact h.sound.disjoint b (hstack hb) (h.sound.closed_reaches hmem hcb)

/-- The component of a root is popped. -/
theorem finish_pop {σ'' : Tarjan α} (h : Progress succ (a :: active) (succ a) a σ σ' (n ++ [a]))
    (hsound : Sound succ active σ) (hlow : σ'.lowlinks a = σ.index)
    (hσ : σ'' = { σ' with
      stack := σ.stack
      onStack := fun b => if b ∈ n ++ [a] then false else σ'.onStack b
      components := σ'.components ++ [(n ++ [a]).insertionSort (· ≤ ·)] }) :
    Progress succ active (succ a) a σ σ'' [] := by
  subst hσ
  have hnodup := h.sound.stack_nodup
  have horder := h.sound.order
  rw [h.stack] at hnodup horder
  have hstack {d : α} (hd : d ∈ n ++ [a]) : d ∈ σ'.stack := by
    rw [h.stack]
    exact List.mem_append_left _ hd
  have hbelow {d : α} (hd : d ∈ σ.stack) : d ∈ σ'.stack := by
    rw [h.stack]
    exact List.mem_append_right _ hd
  have hapart {d : α} (hd : d ∈ σ.stack) : d ∉ n ++ [a] := fun hmem =>
    (List.nodup_append.1 hnodup).2.2 d hmem d hd rfl
  have hflatten (d : α) : d ∈ (σ'.components ++ [(n ++ [a]).insertionSort (· ≤ ·)]).flatten ↔
      d ∈ σ'.components.flatten ∨ d ∈ n ++ [a] := by
    rw [List.flatten_append, List.mem_append, List.flatten_singleton, List.mem_insertionSort]
  refine ⟨⟨(List.pairwise_append.1 horder).2.1, fun b hb => h.sound.bound b (hbelow hb), fun b => ?_,
    fun b => ?_, fun b hb => ?_, ?_, hsound.active_stack, fun b hb hnot => ?_, fun b hb c hc => ?_,
    fun b hb c hc => h.sound.up b (List.mem_cons_of_mem a hb) c (hbelow hc), fun b hb => ?_, fun c hc => ?_⟩,
    h.fresh, h.indices, h.lowlinks, rfl, h.reached, h.number, h.low_le, .inr hlow, h.done_seen,
    fun b hb => nomatch hb⟩
  · change (if b ∈ n ++ [a] then false else σ'.onStack b) = true ↔ b ∈ σ.stack
    by_cases hb : b ∈ n ++ [a]
    · rw [if_pos hb]
      exact iff_of_false Bool.false_ne_true fun hmem => hapart hmem hb
    · rw [if_neg hb, h.sound.onStack, h.stack, List.mem_append, or_iff_right hb]
  · change σ'.Seen b ↔ b ∈ σ.stack ∨ _
    rw [hflatten, h.sound.seen, h.stack, List.mem_append]
    exact ⟨fun hb => hb.elim (fun hb => hb.elim (.inr ∘ .inr) .inl) (.inr ∘ .inl),
      fun hb => hb.elim (.inl ∘ .inr) fun hb => hb.elim .inr (.inl ∘ .inl)⟩
  · rw [hflatten, not_or]
    exact ⟨h.sound.disjoint b (hbelow hb), hapart hb⟩
  · change (σ'.components ++ [(n ++ [a]).insertionSort (· ≤ ·)]).flatten.Nodup
    rw [List.flatten_append, List.flatten_singleton, List.nodup_append]
    refine ⟨h.sound.nodup, ((List.perm_insertionSort (· ≤ ·) (n ++ [a])).nodup_iff).2
      (List.nodup_append.1 hnodup).1, ?_⟩
    rintro b hb c hc rfl
    exact h.sound.disjoint b (hstack ((List.mem_insertionSort _).1 hc)) hb
  · by_cases hba : b = a
    · subst hba
      exact h.done_seen
    · exact h.sound.edges b hb fun hmem => (List.mem_cons.1 hmem).elim hba hnot
  · rw [hflatten] at hb ⊢
    rcases hb with hb | hb
    · exact .inl (h.sound.closed b hb c hc)
    · exact (segment_closed h hsound hlow hb hc).symm
  · obtain ⟨c, hc, hle, hreach⟩ := h.sound.down b (hbelow hb)
    rcases List.mem_cons.1 hc with rfl | hc
    · have hlt := (List.pairwise_append.1 horder).2.2 c (List.mem_append_right n List.mem_cons_self) b hb
      exact absurd hlt (not_lt_of_ge hle)
    · exact ⟨c, hc, hle, hreach⟩
  · rcases List.mem_append.1 hc with hc | hc
    · exact h.sound.strong c hc
    · rw [List.mem_singleton.1 hc]
      refine ⟨fun hnil => ?_, fun d hd e => ?_⟩
      · have hlength := congrArg List.length hnil
        rw [List.length_insertionSort, List.length_append] at hlength
        exact absurd hlength (Nat.succ_ne_zero _)
      · rw [List.mem_insertionSort] at hd ⊢
        exact segment_strong h hsound hlow hd

end Root

/-- **When its edges are explored a node is left**, with its component where it is a root. -/
theorem finish_spec {n : List α} (h : Progress succ (a :: active) (succ a) a σ σ' (n ++ [a]))
    (hsound : Sound succ active σ) :
    ∃ new, Progress succ active (succ a) a σ (σ'.finish a) new := by
  unfold finish
  rw [h.number]
  split
  · rename_i hne
    exact ⟨n ++ [a], finish_stay h fun hlow => hne (congrArg some hlow.symm)⟩
  · rename_i heq
    have hlow : σ'.lowlinks a = σ.index := by simpa using (not_not.1 heq).symm
    have hnot : a ∉ n := fun hmem => by
      have hnodup := h.sound.stack_nodup
      rw [h.stack, List.append_assoc] at hnodup
      exact (List.nodup_append.1 hnodup).2.2 a hmem a List.mem_cons_self rfl
    refine ⟨[], finish_pop h hsound hlow ?_⟩
    rw [h.stack, List.append_assoc, List.singleton_append, popTo_append hnot]

/-! ## The search -/

/-- The number of nodes that were not seen. -/
def freshCount (nodes : List α) (σ : Tarjan α) : ℕ := nodes.countP fun a => σ.indices a = none

variable {nodes : List α} {fuel : ℕ}

omit [LinearOrder α] in
theorem freshCount_le (hseen : ∀ b, σ.Seen b → σ'.Seen b) : freshCount nodes σ' ≤ freshCount nodes σ := by
  apply List.countP_mono_left
  intro b _ hb
  rw [decide_eq_true_iff] at hb ⊢
  by_contra hne
  exact hseen b hne hb

theorem freshCount_enter_lt (ha : σ.indices a = none) (hmem : a ∈ nodes) :
    freshCount nodes (σ.enter a) < freshCount nodes σ := by
  refine countP_lt_countP (fun b _ hb => ?_) hmem ?_ (decide_eq_true ha)
  · rw [decide_eq_true_iff] at hb ⊢
    by_contra hne
    exact enter_seen.2 (.inr hne) hb
  · rw [decide_eq_false_iff_not]
    exact enter_seen.2 (.inl rfl)

/-- What a visit of any node does with so much fuel. -/
def Visits (succ : α → List α) (nodes : List α) (fuel : ℕ) : Prop :=
  ∀ (active : List α) (σ : Tarjan α) (a : α), Sound succ active σ → σ.indices a = none → a ∈ nodes →
    (∀ b ∈ active, Reaches succ b a) → freshCount nodes σ ≤ fuel →
    ∃ σ' new, visit succ fuel σ a = some σ' ∧ Progress succ active (succ a) a σ σ' new

/-- One edge after the other is explored. -/
theorem explore_all (hnodes : ∀ a ∈ nodes, ∀ b ∈ succ a, b ∈ nodes) (hvisits : Visits succ nodes fuel)
    (ha : a ∈ nodes) (hactive : ∀ b ∈ active, Reaches succ b a) {n : List α}
    (edges done : List α) (hedges : edges ⊆ succ a)
    (h : Progress succ (a :: active) done a σ σ' (n ++ [a])) (hfuel : freshCount nodes σ' ≤ fuel) :
    ∃ τ n', edges.foldlM (explore (visit succ fuel) a) σ' = some τ ∧
      Progress succ (a :: active) (done ++ edges) a σ τ (n' ++ [a]) := by
  induction edges generalizing done σ' n with
  | nil => exact ⟨σ', n, rfl, by rwa [List.append_nil]⟩
  | cons b edges ih =>
    obtain ⟨hb, hedges⟩ := List.cons_subset.1 hedges
    have hfirst : ∃ σ'' n', explore (visit succ fuel) a σ' b = some σ'' ∧
        Progress succ (a :: active) (done ++ [b]) a σ σ'' (n' ++ [a]) ∧
        freshCount nodes σ'' ≤ freshCount nodes σ' := by
      unfold explore
      cases hindex : σ'.indices b with
      | none =>
        have hreach : ∀ c ∈ a :: active, Reaches succ c b := by
          intro c hc
          rcases List.mem_cons.1 hc with rfl | hc
          · exact .single hb
          · exact (hactive c hc).tail hb
        obtain ⟨σ'', new, hrun, hvisit⟩ :=
          hvisits (a :: active) σ' b h.sound hindex (hnodes a ha b hb) hreach hfuel
        refine ⟨σ''.lower a (σ''.lowlinks b), new ++ n, ?_, ?_, freshCount_le fun c hc => hvisit.seen hc⟩
        · dsimp only
          rw [hrun, Option.map_some]
        · rw [List.append_assoc]
          exact explore_fresh h hb hvisit
      | some index =>
        refine ⟨_, n, rfl, explore_seen h hb hindex, freshCount_le fun c hc => ?_⟩
        split
        · exact hc
        · exact hc
    obtain ⟨σ'', n', hrun, h', hle⟩ := hfirst
    obtain ⟨τ, n'', hrun', h''⟩ := ih (done ++ [b]) hedges h' (hle.trans hfuel)
    refine ⟨τ, n'', ?_, ?_⟩
    · rw [List.foldlM_cons, hrun]
      exact hrun'
    · rwa [List.append_assoc] at h''

/-- **What a visit does**: it sees all that the node reaches and was not seen before. -/
theorem visit_spec (hnodes : ∀ a ∈ nodes, ∀ b ∈ succ a, b ∈ nodes) (fuel : ℕ) : Visits succ nodes fuel := by
  induction fuel with
  | zero =>
    intro active σ a _ ha hmem _ hfuel
    have hlt := freshCount_enter_lt ha hmem
    omega
  | succ fuel ih =>
    intro active σ a hsound ha hmem hactive hfuel
    have hlt := freshCount_enter_lt ha hmem
    obtain ⟨σ', n, hrun, h⟩ := explore_all hnodes ih hmem hactive (succ a) []
      (List.Subset.refl _) (enter_progress hsound ha hactive) (by omega)
    obtain ⟨new, hfinish⟩ := finish_spec h hsound
    refine ⟨σ'.finish a, new, ?_, hfinish⟩
    rw [visit, hrun]
    rfl

omit [LinearOrder α] in
theorem sound_empty : Sound succ [] ({} : Tarjan α) :=
  ⟨.nil, fun a ha => (nomatch ha), fun a => by simp, fun a => by simp [Seen], fun a ha => (nomatch ha), .nil,
    List.Subset.refl _, fun a ha => absurd rfl ha, fun a ha => (nomatch ha), fun a ha => (nomatch ha),
    fun b hb => (nomatch hb), fun c hc => (nomatch hc)⟩

/-- The search from one node after the other. -/
theorem visitAll_sound (hnodes : ∀ a ∈ nodes, ∀ b ∈ succ a, b ∈ nodes) (starts : List α)
    (hstarts : starts ⊆ nodes) (σ : Tarjan α) (hsound : Sound succ [] σ) (hfuel : freshCount nodes σ ≤ fuel) :
    ∃ σ', visitAll succ fuel σ starts = some σ' ∧ Sound succ [] σ' ∧
      (∀ a, σ'.Seen a → σ.Seen a ∨ ∃ s ∈ starts, Reaches succ s a) ∧
      (∀ a, σ.Seen a ∨ a ∈ starts → σ'.Seen a) := by
  induction starts generalizing σ with
  | nil => exact ⟨σ, rfl, hsound, fun _ => .inl, fun a ha => ha.resolve_right List.not_mem_nil⟩
  | cons s starts ih =>
    obtain ⟨hs, hstarts⟩ := List.cons_subset.1 hstarts
    have hfirst : ∃ σ', (if σ.indices s = none then visit succ fuel σ s else some σ) = some σ' ∧
        Sound succ [] σ' ∧ (∀ a, σ'.Seen a → σ.Seen a ∨ Reaches succ s a) ∧
        (∀ a, σ.Seen a ∨ a = s → σ'.Seen a) := by
      split
      · rename_i hnone
        obtain ⟨σ', new, hrun, h⟩ :=
          visit_spec hnodes fuel [] σ s hsound hnone hs (fun b hb => nomatch hb) hfuel
        refine ⟨σ', hrun, h.sound, h.reached, ?_⟩
        rintro a (ha | rfl)
        · exact h.seen ha
        · rw [Seen, h.number]
          exact Option.some_ne_none _
      · rename_i hseen
        refine ⟨σ, rfl, hsound, fun _ => .inl, ?_⟩
        rintro a (ha | rfl)
        · exact ha
        · exact hseen
    obtain ⟨σ', hrun, hsound', hreached, hseen⟩ := hfirst
    obtain ⟨σ'', hrun', hsound'', hreached', hseen'⟩ := ih hstarts σ' hsound'
      ((freshCount_le fun a ha => hseen a (.inl ha)).trans hfuel)
    refine ⟨σ'', ?_, hsound'', fun a ha => ?_, fun a ha => hseen' a ?_⟩
    · rw [visitAll, List.foldlM_cons, hrun]
      exact hrun'
    · rcases hreached' a ha with ha | ⟨t, ht, hreach⟩
      · exact (hreached a ha).imp_right fun hreach => ⟨s, List.mem_cons_self, hreach⟩
      · exact .inr ⟨t, List.mem_cons_of_mem s ht, hreach⟩
    · rw [List.mem_cons, ← or_assoc] at ha
      exact ha.imp_left (hseen a)

/-- **The search gives the strongly connected components** of what is reached from its starts. -/
theorem visitAll_spec (hnodes : ∀ a ∈ nodes, ∀ b ∈ succ a, b ∈ nodes) {starts : List α}
    (hstarts : starts ⊆ nodes) (hfuel : nodes.length ≤ fuel) :
    ∃ σ, visitAll succ fuel {} starts = some σ ∧ σ.components.flatten.Nodup ∧
      (∀ a, a ∈ σ.components.flatten ↔ ∃ s ∈ starts, Reaches succ s a) ∧
      ∀ c ∈ σ.components, c ≠ [] ∧ ∀ a ∈ c, ∀ b, b ∈ c ↔ Reaches succ a b ∧ Reaches succ b a := by
  obtain ⟨σ, hrun, hsound, hreached, hseen⟩ := visitAll_sound hnodes starts hstarts {} sound_empty
    (List.countP_le_length.trans hfuel)
  have hstack : ∀ b, b ∉ σ.stack := by
    intro b hb
    obtain ⟨a, ha, -⟩ := hsound.down b hb
    exact nomatch ha
  have hflatten (a : α) : σ.Seen a ↔ a ∈ σ.components.flatten := by
    rw [hsound.seen, or_iff_right (hstack a)]
  refine ⟨σ, hrun, hsound.nodup, fun a => ⟨fun ha => ?_, ?_⟩, hsound.strong⟩
  · exact (hreached a ((hflatten a).2 ha)).resolve_left fun hne => hne rfl
  · rintro ⟨s, hs, hreach⟩
    exact hsound.closed_reaches ((hflatten s).1 (hseen s (.inr hs))) hreach

end Tarjan

end SemantiST.Lib
