import Mathlib.Data.List.Nodup
import Mathlib.Order.Nat
import Mathlib.Tactic.Tauto

/-!
# Interning paths

A path starts at a root key and continues with labels.  A table issues one identity to every
root key and to every pair of a parent identity and a label, the first time it meets it.  An
identity then stands for the whole path that leads to it (`Denotes`), and two identities of one
table are equal exactly when their paths are.
-/

namespace SemantiST.Lib

/-! ## One table -/

section Keys

variable {κ : Type*} [DecidableEq κ] {tbl : List (ℕ × κ)} {k : κ} {i : ℕ}

/-- The identity under which a table files `k`. -/
def idOf (tbl : List (ℕ × κ)) (k : κ) : Option ℕ := (tbl.find? fun e => e.2 = k).map Prod.fst

theorem mem_of_idOf (h : idOf tbl k = some i) : (i, k) ∈ tbl := by
  obtain ⟨e, he, rfl⟩ := Option.map_eq_some_iff.1 h
  have hk : e.2 = k := by simpa using List.find?_some he
  simpa [← hk] using List.mem_of_find?_eq_some he

theorem not_mem_of_idOf_eq_none (h : idOf tbl k = none) : k ∉ tbl.map Prod.snd := by
  intro hk
  obtain ⟨e, he, rfl⟩ := List.mem_map.1 hk
  rw [idOf, Option.map_eq_none_iff, List.find?_eq_none] at h
  simpa using h e he

/-- In a list whose second components are distinct, these determine the entry. -/
theorem eq_of_mem_of_nodup_snd {α β : Type*} {l : List (α × β)} (hl : (l.map Prod.snd).Nodup)
    {a a' : α} {b : β} (h : (a, b) ∈ l) (h' : (a', b) ∈ l) : a = a' :=
  congrArg Prod.fst (List.inj_on_of_nodup_map hl h h' rfl)

/-- In a list whose first components are distinct, these determine the entry. -/
theorem eq_of_mem_of_nodup_fst {α β : Type*} {l : List (α × β)} (hl : (l.map Prod.fst).Nodup)
    {a : α} {b b' : β} (h : (a, b) ∈ l) (h' : (a, b') ∈ l) : b = b' :=
  congrArg Prod.snd (List.inj_on_of_nodup_map hl h h' rfl)

end Keys

/-! ## Path tables -/

/-- The root table, the table of (parent, label) pairs, and the next free identity. -/
structure PathTable (ρ φ : Type*) where
  roots : List (ℕ × ρ)
  nodes : List (ℕ × ℕ × φ)
  next : ℕ

namespace PathTable

variable {ρ φ : Type*}

/-- `t.Denotes i r fs`: the identity `i` stands for the path `fs` from the root key `r`. -/
inductive Denotes (t : PathTable ρ φ) : ℕ → ρ → List φ → Prop
  | root {i r} : (i, r) ∈ t.roots → Denotes t i r []
  | node {i p r fs f} : Denotes t p r fs → (i, p, f) ∈ t.nodes → Denotes t i r (fs ++ [f])

/-- The identities a table has issued. -/
def ids (t : PathTable ρ φ) : List ℕ := t.roots.map Prod.fst ++ t.nodes.map Prod.fst

/-- A table all of whose identities were issued from `floor` on, each one once and each for a
key of its own. -/
structure WF (floor : ℕ) (t : PathTable ρ φ) : Prop where
  nodup_ids : t.ids.Nodup
  nodup_roots : (t.roots.map Prod.snd).Nodup
  nodup_nodes : (t.nodes.map Prod.snd).Nodup
  floor_le : ∀ i ∈ t.ids, floor ≤ i
  lt_next : ∀ i ∈ t.ids, i < t.next
  floor_le_next : floor ≤ t.next

/-- The table `t'` holds everything `t` holds. -/
structure Extends (t t' : PathTable ρ φ) : Prop where
  roots : t.roots ⊆ t'.roots
  nodes : t.nodes ⊆ t'.nodes
  next : t.next ≤ t'.next

variable {t t' t'' : PathTable ρ φ} {floor i j p : ℕ} {r r' : ρ} {fs fs' : List φ} {f : φ}

theorem Extends.refl (t : PathTable ρ φ) : t.Extends t :=
  ⟨List.Subset.refl _, List.Subset.refl _, le_rfl⟩

theorem Extends.trans (h : t.Extends t') (h' : t'.Extends t'') : t.Extends t'' :=
  ⟨List.Subset.trans h.roots h'.roots, List.Subset.trans h.nodes h'.nodes, h.next.trans h'.next⟩

theorem Denotes.mono (h : t.Denotes i r fs) (hext : t.Extends t') : t'.Denotes i r fs := by
  induction h with
  | root hr => exact .root (hext.roots hr)
  | node _ hn ih => exact .node ih (hext.nodes hn)

theorem Denotes.mem_ids (h : t.Denotes i r fs) : i ∈ t.ids := by
  cases h with
  | root hr => exact List.mem_append_left _ (List.mem_map_of_mem hr)
  | node _ hn => exact List.mem_append_right _ (List.mem_map_of_mem hn)

theorem wf_empty (h : t.roots = []) (h' : t.nodes = []) : t.WF t.next where
  nodup_ids := by simp [ids, h, h']
  nodup_roots := by simp [h]
  nodup_nodes := by simp [h']
  floor_le := by simp [ids, h, h']
  lt_next := by simp [ids, h, h']
  floor_le_next := le_rfl

/-- Filing the next free identity under a key that is not there yet keeps a table well formed. -/
theorem WF.issue (hwf : t.WF floor) (hids : t'.ids.Perm (t.next :: t.ids))
    (hroots : (t'.roots.map Prod.snd).Nodup) (hnodes : (t'.nodes.map Prod.snd).Nodup)
    (hnext : t'.next = t.next + 1) : t'.WF floor := by
  have hnew : t.next ∉ t.ids := fun h => lt_irrefl _ (hwf.lt_next _ h)
  have hmem : ∀ i ∈ t'.ids, i = t.next ∨ i ∈ t.ids := fun i hi => List.mem_cons.1 (hids.mem_iff.1 hi)
  refine ⟨hids.nodup_iff.2 (List.nodup_cons.2 ⟨hnew, hwf.nodup_ids⟩), hroots, hnodes, ?_, ?_, ?_⟩
  · intro i hi
    rcases hmem i hi with rfl | hi
    · exact hwf.floor_le_next
    · exact hwf.floor_le i hi
  · intro i hi
    rcases hmem i hi with rfl | hi
    · omega
    · have := hwf.lt_next i hi
      omega
  · have := hwf.floor_le_next
    omega

theorem not_mem_nodes_of_mem_roots (h : t.WF floor) (hr : i ∈ t.roots.map Prod.fst) :
    i ∉ t.nodes.map Prod.fst := fun hn =>
  (List.nodup_append.1 h.nodup_ids).2.2 i hr i hn rfl

/-- **An identity stands for one path.** -/
theorem Denotes.functional (hwf : t.WF floor) (h : t.Denotes i r fs) (h' : t.Denotes i r' fs') :
    r = r' ∧ fs = fs' := by
  have hroots := (List.nodup_append.1 hwf.nodup_ids).1
  have hnodes := (List.nodup_append.1 hwf.nodup_ids).2.1
  induction h generalizing r' fs' with
  | root hr =>
    cases h' with
    | root hr' => exact ⟨eq_of_mem_of_nodup_fst hroots hr hr', rfl⟩
    | node _ hn =>
      exact absurd (List.mem_map_of_mem hn) (not_mem_nodes_of_mem_roots hwf (List.mem_map_of_mem hr))
  | node _ hn ih =>
    cases h' with
    | root hr' =>
      exact absurd (List.mem_map_of_mem hn) (not_mem_nodes_of_mem_roots hwf (List.mem_map_of_mem hr'))
    | node hp' hn' =>
      obtain ⟨rfl, rfl⟩ := Prod.mk.injEq .. ▸ eq_of_mem_of_nodup_fst hnodes hn hn'
      obtain ⟨rfl, rfl⟩ := ih hp'
      exact ⟨rfl, rfl⟩

/-- **A path has one identity.** -/
theorem Denotes.injective (hwf : t.WF floor) (h : t.Denotes i r fs) (h' : t.Denotes j r fs) :
    i = j := by
  induction h generalizing j with
  | root hr =>
    generalize hgs : [] = gs at h'
    cases h' with
    | root hr' => exact eq_of_mem_of_nodup_snd hwf.nodup_roots hr hr'
    | node _ _ => simp at hgs
  | @node i p r fs f _ hn ih =>
    generalize hgs : fs ++ [f] = gs at h'
    cases h' with
    | root _ => simp at hgs
    | @node _ q _ gs g hp' hn' =>
      obtain ⟨rfl, hfg⟩ := List.append_inj' hgs rfl
      obtain rfl : f = g := by simpa using hfg
      obtain rfl := ih hp'
      exact eq_of_mem_of_nodup_snd hwf.nodup_nodes hn hn'

/-- Two identities are equal exactly when their paths are. -/
theorem Denotes.eq_iff (hwf : t.WF floor) (h : t.Denotes i r fs) (h' : t.Denotes j r' fs') :
    i = j ↔ r = r' ∧ fs = fs' := by
  constructor
  · rintro rfl
    exact h.functional hwf h'
  · rintro ⟨rfl, rfl⟩
    exact h.injective hwf h'

/-! ### Interning -/

section Root

variable [DecidableEq ρ]

/-- The identity of a root key, issued now if it is new. -/
def internRoot (t : PathTable ρ φ) (r : ρ) : ℕ × PathTable ρ φ :=
  match idOf t.roots r with
  | some i => (i, t)
  | none => (t.next, { t with roots := t.roots ++ [(t.next, r)], next := t.next + 1 })

theorem internRoot_wf (hwf : t.WF floor) : (t.internRoot r).2.WF floor := by
  unfold internRoot
  split
  · exact hwf
  · rename_i hnone
    refine hwf.issue ?_ ?_ hwf.nodup_nodes rfl
    · simp [ids]
    · rw [List.map_append, List.map_singleton, ← List.concat_eq_append]
      exact hwf.nodup_roots.concat (not_mem_of_idOf_eq_none hnone)

theorem internRoot_extends (t : PathTable ρ φ) (r : ρ) : t.Extends (t.internRoot r).2 := by
  unfold internRoot
  split
  · exact .refl t
  · exact ⟨List.subset_append_left _ _, List.Subset.refl _, Nat.le_succ _⟩

theorem internRoot_denotes (t : PathTable ρ φ) (r : ρ) :
    (t.internRoot r).2.Denotes (t.internRoot r).1 r [] := by
  unfold internRoot
  split
  · rename_i hsome
    exact .root (mem_of_idOf hsome)
  · exact .root (by simp)

end Root

section Node

variable [DecidableEq φ]

/-- The identity of the label `f` below `p`, issued now if it is new. -/
def internNode (t : PathTable ρ φ) (p : ℕ) (f : φ) : ℕ × PathTable ρ φ :=
  match idOf t.nodes (p, f) with
  | some i => (i, t)
  | none => (t.next, { t with nodes := t.nodes ++ [(t.next, p, f)], next := t.next + 1 })

/-- The identities along the path `fs` below `p`. -/
def internFrom (t : PathTable ρ φ) (p : ℕ) : List φ → List ℕ × PathTable ρ φ
  | [] => ([], t)
  | f :: fs =>
    let (i, t) := t.internNode p f
    let (is, t) := t.internFrom i fs
    (i :: is, t)

theorem internNode_wf (hwf : t.WF floor) : (t.internNode p f).2.WF floor := by
  unfold internNode
  split
  · exact hwf
  · rename_i hnone
    refine hwf.issue ?_ hwf.nodup_roots ?_ rfl
    · have hperm : (t.roots.map Prod.fst ++ t.nodes.map Prod.fst ++ [t.next]).Perm
          ([t.next] ++ (t.roots.map Prod.fst ++ t.nodes.map Prod.fst)) := List.perm_append_comm
      simpa [ids] using hperm
    · rw [List.map_append, List.map_singleton, ← List.concat_eq_append]
      exact hwf.nodup_nodes.concat (not_mem_of_idOf_eq_none hnone)

theorem internNode_extends (t : PathTable ρ φ) (p : ℕ) (f : φ) :
    t.Extends (t.internNode p f).2 := by
  unfold internNode
  split
  · exact .refl t
  · exact ⟨List.Subset.refl _, List.subset_append_left _ _, Nat.le_succ _⟩

theorem internNode_denotes (hp : t.Denotes p r fs) (f : φ) :
    (t.internNode p f).2.Denotes (t.internNode p f).1 r (fs ++ [f]) := by
  refine .node (hp.mono (internNode_extends t p f)) ?_
  unfold internNode
  split
  · rename_i hsome
    exact mem_of_idOf hsome
  · simp

theorem internFrom_wf (hwf : t.WF floor) (p : ℕ) (fs : List φ) :
    (t.internFrom p fs).2.WF floor := by
  induction fs generalizing t p with
  | nil => exact hwf
  | cons f fs ih => exact ih (internNode_wf hwf) _

theorem internFrom_extends (t : PathTable ρ φ) (p : ℕ) (fs : List φ) :
    t.Extends (t.internFrom p fs).2 := by
  induction fs generalizing t p with
  | nil => exact .refl t
  | cons f fs ih => exact (internNode_extends t p f).trans (ih _ _)

theorem internFrom_length (t : PathTable ρ φ) (p : ℕ) (fs : List φ) :
    (t.internFrom p fs).1.length = fs.length := by
  induction fs generalizing t p with
  | nil => rfl
  | cons f fs ih => simp [internFrom, ih]

/-- **Position `k` of an interned path gets an identity for its first `k + 1` labels.** -/
theorem internFrom_denotes (hp : t.Denotes p r fs') (fs : List φ) {k : ℕ} {i : ℕ}
    (h : (t.internFrom p fs).1[k]? = some i) :
    (t.internFrom p fs).2.Denotes i r (fs' ++ fs.take (k + 1)) := by
  induction fs generalizing t p fs' k with
  | nil => simp [internFrom] at h
  | cons f fs ih =>
    have hnode := internNode_denotes hp f
    cases k with
    | zero =>
      obtain rfl : (t.internNode p f).1 = i := by simpa [internFrom] using h
      simpa [internFrom] using hnode.mono (internFrom_extends _ _ fs)
    | succ k =>
      have := ih hnode (k := k) (by simpa [internFrom] using h)
      simpa [internFrom, List.append_assoc] using this

end Node

end PathTable

end SemantiST.Lib
