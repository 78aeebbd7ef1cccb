import Mathlib.Algebra.Order.BigOperators.Group.List
import Mathlib.Algebra.Order.Ring.Nat
import Mathlib.Logic.Relation
import SemantiST.Lib.Loop

/-!
# Reachability with a stack

A search that takes a node off a stack and, if it is new, puts all its successors there.  What it has seen
in the end is what is reached from where it started (`mem_reachFrom`).
-/

namespace SemantiST.Lib

/-- A sum over fewer members. -/
theorem sum_filter_add_le {α : Type} {p q : α → Bool} (f : α → ℕ) {l : List α} (hle : ∀ x, p x = true → q x = true)
    {a : α} (ha : a ∈ l) (hp : p a = false) (hq : q a = true) :
    ((l.filter p).map f).sum + f a ≤ ((l.filter q).map f).sum := by
  have hsub (l : List α) : ((l.filter p).map f).sum ≤ ((l.filter q).map f).sum :=
    ((l.monotone_filter_right hle).map f).sum_le_sum fun _ _ => Nat.zero_le _
  obtain ⟨pre, post, rfl⟩ := List.append_of_mem ha
  have hpre := hsub pre
  have hpost := hsub post
  simp only [List.filter_append, List.filter_cons, hp, hq, if_true, List.map_append, List.map_cons, List.sum_append,
    List.sum_cons, Bool.false_eq_true, if_false]
  omega

structure Stacked (α : Type) where
  pending : List α
  seen : List α := []

namespace Stacked

variable {α : Type} [DecidableEq α] (next : α → List α)

/-- One node is taken off the stack. -/
def step (s : Stacked α) : Option (Stacked α) :=
  match s.pending with
  | [] => none
  | a :: pending =>
    if a ∈ s.seen then some { s with pending := pending }
    else some { pending := (next a).reverse ++ pending, seen := a :: s.seen }

/-- The nodes on the stack, and those that nodes not seen yet may put there. -/
def measure (nodes : List α) (s : Stacked α) : ℕ :=
  s.pending.length + ((nodes.filter fun a => a ∉ s.seen).map fun a => (next a).length).sum

/-- What is seen from some nodes on, in a graph all of whose edges leave `nodes`. -/
def reachFrom (nodes starts : List α) : List α :=
  (loop (step next) (measure next nodes ⟨starts, []⟩) ⟨starts, []⟩).seen

/-- A node is reached from one of the first ones. -/
def Reached (starts : List α) (b : α) : Prop := ∃ a ∈ starts, Relation.ReflTransGen (fun a b => b ∈ next a) a b

variable {next} {nodes starts : List α} {s s' : Stacked α}

theorem measure_step (hnodes : ∀ a, a ∉ nodes → next a = []) (h : step next s = some s') :
    measure next nodes s' < measure next nodes s := by
  unfold step at h
  split at h
  · cases h
  rename_i a pending hpending
  split at h
  · cases h
    simp only [measure, hpending, List.length_cons]
    omega
  rename_i hunseen
  cases h
  have hmono (x : α) (hx : decide (x ∉ a :: s.seen) = true) : decide (x ∉ s.seen) = true := by
    rw [decide_eq_true_eq] at hx ⊢
    exact fun hmem => hx (List.mem_cons_of_mem _ hmem)
  by_cases hmem : a ∈ nodes
  · have hsum := sum_filter_add_le (fun a => (next a).length) hmono hmem (by simp) (by simpa using hunseen)
    simp only [measure, hpending, List.length_cons, List.length_append, List.length_reverse]
    omega
  · have hsum := ((nodes.monotone_filter_right hmono).map fun a => (next a).length).sum_le_sum
      fun _ _ => Nat.zero_le _
    simp only [measure, hpending, hnodes a hmem, List.reverse_nil, List.nil_append, List.length_cons]
    omega

/-- What the search keeps: it meets what is reached only, and the successors of what is seen are met. -/
structure Kept (next : α → List α) (starts : List α) (s : Stacked α) : Prop where
  reached : ∀ a, a ∈ s.pending ∨ a ∈ s.seen → Reached next starts a
  starts : ∀ a ∈ starts, a ∈ s.seen ∨ a ∈ s.pending
  closed : ∀ a ∈ s.seen, ∀ b ∈ next a, b ∈ s.seen ∨ b ∈ s.pending

theorem kept_step (h : s.Kept next starts) (hstep : step next s = some s') : s'.Kept next starts := by
  unfold step at hstep
  split at hstep
  · cases hstep
  rename_i a pending hpending
  have ha : a ∈ s.pending := by rw [hpending]; exact List.mem_cons_self
  have hrest : pending ⊆ s.pending := by rw [hpending]; exact List.subset_cons_self _ _
  split at hstep
  · rename_i hseen
    cases hstep
    -- the node that leaves the stack was seen before
    have hleft (b : α) (hb : b ∈ s.seen ∨ b ∈ s.pending) : b ∈ s.seen ∨ b ∈ pending := by
      rcases hb with hb | hb
      · exact .inl hb
      rw [hpending] at hb
      rcases List.mem_cons.1 hb with rfl | hb
      · exact .inl hseen
      · exact .inr hb
    exact {
      reached := fun b hb => h.reached b (hb.imp_left (hrest ·))
      starts := fun b hb => hleft b (h.starts b hb)
      closed := fun b hb c hc => hleft c (h.closed b hb c hc) }
  · cases hstep
    have hleft (b : α) (hb : b ∈ s.seen ∨ b ∈ s.pending) : b ∈ a :: s.seen ∨ b ∈ (next a).reverse ++ pending := by
      rcases hb with hb | hb
      · exact .inl (List.mem_cons_of_mem _ hb)
      rw [hpending] at hb
      rcases List.mem_cons.1 hb with rfl | hb
      · exact .inl List.mem_cons_self
      · exact .inr (List.mem_append_right _ hb)
    refine ⟨?_, fun b hb => hleft b (h.starts b hb), ?_⟩
    · rintro b (hb | hb)
      · rcases List.mem_append.1 hb with hb | hb
        · obtain ⟨start, hstart, hpath⟩ := h.reached a (.inl ha)
          exact ⟨start, hstart, hpath.tail (List.mem_reverse.1 hb)⟩
        · exact h.reached b (.inl (hrest hb))
      · rcases List.mem_cons.1 hb with rfl | hb
        · exact h.reached b (.inl ha)
        · exact h.reached b (.inr hb)
    · intro b hb c hc
      rcases List.mem_cons.1 hb with rfl | hb
      · exact .inr (List.mem_append_left _ (List.mem_reverse.2 hc))
      · exact hleft c (h.closed b hb c hc)

/-- **The search sees what is reached.** -/
theorem mem_reachFrom (hnodes : ∀ a, a ∉ nodes → next a = []) {b : α} :
    b ∈ reachFrom next nodes starts ↔ Reached next starts b := by
  have hloop := loop_ends (measure next nodes) (fun _ _ => measure_step hnodes)
    (Nat.le_refl (measure next nodes ⟨starts, []⟩))
  have hkept : Kept next starts (loop (step next) (measure next nodes ⟨starts, []⟩) ⟨starts, []⟩) := by
    refine hloop.invariant (fun _ _ => kept_step) ⟨?_, fun a ha => .inr ha, fun a ha => by cases ha⟩
    rintro a (ha | ha)
    · exact ⟨a, ha, .refl⟩
    · cases ha
  have hempty : (loop (step next) (measure next nodes ⟨starts, []⟩) ⟨starts, []⟩).pending = [] := by
    have hnone := hloop.step_eq_none
    unfold step at hnone
    split at hnone
    · assumption
    · split at hnone <;> cases hnone
  constructor
  · exact fun h => hkept.reached b (.inr h)
  · rintro ⟨a, ha, hpath⟩
    have hseen : ∀ c, c ∈ (loop (step next) (measure next nodes ⟨starts, []⟩) ⟨starts, []⟩).seen ∨
        c ∈ (loop (step next) (measure next nodes ⟨starts, []⟩) ⟨starts, []⟩).pending →
          c ∈ (loop (step next) (measure next nodes ⟨starts, []⟩) ⟨starts, []⟩).seen := by
      intro c hc
      rw [hempty] at hc
      exact hc.resolve_right List.not_mem_nil
    induction hpath with
    | refl => exact hseen a (hkept.starts a ha)
    | tail _ hedge ih => exact hseen _ (hkept.closed _ ih _ hedge)

end Stacked

end SemantiST.Lib
