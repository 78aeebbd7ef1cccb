import Mathlib.Data.List.Induction
import Mathlib.Data.List.Nodup
import Mathlib.Logic.Relation

/-!
# Trails through a graph with named edges

A trail is the list of the edges that are taken.  It grows at its end; a simple one meets no node twice.
Where a node is reached at all there is a simple trail to it (`exists_simple`).
-/

namespace SemantiST.Lib.Trail

variable {α ε : Type} (source target : ε → α)

/-- Each edge starts where the one before has ended. -/
def Follows : α → List ε → Prop
  | _, [] => True
  | a, e :: trail => source e = a ∧ Follows (target e) trail

/-- Where a trail ends. -/
def endOf : α → List ε → α
  | a, [] => a
  | _, e :: trail => endOf (target e) trail

/-- The nodes on a trail. -/
def nodesOf (a : α) (trail : List ε) : List α := a :: trail.map target

structure Simple (edges : List ε) (a : α) (trail : List ε) : Prop where
  follows : Follows source target a trail
  edges : trail ⊆ edges
  nodup : (nodesOf target a trail).Nodup

/-- An edge leads from `a` to `b`. -/
def Leads (edges : List ε) (a b : α) : Prop := ∃ e ∈ edges, source e = a ∧ target e = b

variable {source target} {edges : List ε} {a b c : α} {e : ε} {trail trail' : List ε}

theorem follows_concat :
    Follows source target a (trail ++ [e]) ↔ Follows source target a trail ∧ source e = endOf target a trail := by
  induction trail generalizing a with
  | nil => exact and_comm
  | cons d trail ih =>
    rw [List.cons_append, Follows, ih, Follows, endOf, and_assoc]

@[simp] theorem endOf_concat : endOf target a (trail ++ [e]) = target e := by
  induction trail generalizing a with
  | nil => rfl
  | cons d trail ih => exact ih

theorem nodesOf_concat : nodesOf target a (trail ++ [e]) = nodesOf target a trail ++ [target e] := by
  rw [nodesOf, List.map_append]
  rfl

theorem endOf_mem_nodesOf : endOf target a trail ∈ nodesOf target a trail := by
  induction trail generalizing a with
  | nil => exact List.mem_cons_self
  | cons d trail ih => exact List.mem_cons_of_mem a ih

theorem simple_nil : Simple source target edges a [] :=
  ⟨trivial, List.nil_subset edges, List.nodup_singleton a⟩

/-- A simple trail with one more edge. -/
theorem simple_concat : Simple source target edges a (trail ++ [e]) ↔
    Simple source target edges a trail ∧ e ∈ edges ∧ source e = endOf target a trail ∧
      target e ∉ nodesOf target a trail := by
  have hnodup : (nodesOf target a trail ++ [target e]).Nodup ↔
      (nodesOf target a trail).Nodup ∧ target e ∉ nodesOf target a trail := by
    rw [List.nodup_append]
    constructor
    · exact fun h => ⟨h.1, fun hmem => h.2.2 _ hmem _ List.mem_cons_self rfl⟩
    · rintro ⟨h, hnot⟩
      refine ⟨h, List.nodup_singleton _, ?_⟩
      rintro b hb c hc rfl
      rw [List.mem_singleton.1 hc] at hb
      exact hnot hb
  constructor
  · rintro ⟨hfollows, hedges, h⟩
    rw [nodesOf_concat, hnodup] at h
    rw [follows_concat] at hfollows
    rw [List.append_subset] at hedges
    exact ⟨⟨hfollows.1, hedges.1, h.1⟩, hedges.2 List.mem_cons_self, hfollows.2, h.2⟩
  · rintro ⟨⟨hfollows, hedges, h⟩, he, hsource, hnot⟩
    refine ⟨follows_concat.2 ⟨hfollows, hsource⟩, ?_, ?_⟩
    · exact List.append_subset.2 ⟨hedges, List.cons_subset.2 ⟨he, List.nil_subset _⟩⟩
    · rw [nodesOf_concat, hnodup]
      exact ⟨h, hnot⟩

/-- Along a trail each node reaches its end. -/
theorem reaches_end (hfollows : Follows source target a trail) (hedges : trail ⊆ edges)
    (hb : b ∈ nodesOf target a trail) :
    Relation.ReflTransGen (Leads source target edges) b (endOf target a trail) := by
  induction trail generalizing a b with
  | nil =>
    rw [List.mem_singleton.1 hb]
    exact .refl
  | cons d trail ih =>
    obtain ⟨hd, hedges⟩ := List.cons_subset.1 hedges
    rcases List.mem_cons.1 hb with rfl | hb
    · exact .head ⟨d, hd, hfollows.1, rfl⟩ (ih hfollows.2 hedges List.mem_cons_self)
    · exact ih hfollows.2 hedges hb

/-- The start of a simple trail up to one of its nodes. -/
theorem Simple.upTo (h : Simple source target edges a trail) (hb : b ∈ nodesOf target a trail) :
    ∃ trail', Simple source target edges a trail' ∧ endOf target a trail' = b := by
  induction trail using List.reverseRecOn with
  | nil => exact ⟨[], h, (List.mem_singleton.1 hb).symm⟩
  | append_singleton trail d ih =>
    rw [nodesOf_concat, List.mem_append] at hb
    rcases hb with hb | hb
    · exact ih (simple_concat.1 h).1 hb
    · exact ⟨trail ++ [d], h, by rw [endOf_concat, List.mem_singleton.1 hb]⟩

/-- **What is reached is reached by a simple trail.** -/
theorem exists_simple (h : Relation.ReflTransGen (Leads source target edges) a b) :
    ∃ trail, Simple source target edges a trail ∧ endOf target a trail = b := by
  induction h with
  | refl => exact ⟨[], simple_nil, rfl⟩
  | tail _ hedge ih =>
    obtain ⟨trail, hsimple, hend⟩ := ih
    obtain ⟨e, he, hsource, rfl⟩ := hedge
    by_cases hmem : target e ∈ nodesOf target a trail
    · exact hsimple.upTo hmem
    · exact ⟨trail ++ [e], simple_concat.2 ⟨hsimple, he, hsource.trans hend.symm, hmem⟩, endOf_concat⟩

/-- A trail is known by the nodes it meets, as far as its edges are known by their ends and a name. -/
theorem follows_unique {ν : Type} {name : ε → ν}
    (hname : ∀ d e, source d = source e → target d = target e → name d = name e → d = e)
    (h : Follows source target a trail) (h' : Follows source target a trail')
    (htargets : trail.map target = trail'.map target) (hnames : trail.map name = trail'.map name) :
    trail = trail' := by
  induction trail generalizing a trail' with
  | nil => exact (List.map_eq_nil_iff.1 htargets.symm).symm
  | cons d trail ih =>
    cases trail' with
    | nil => cases htargets
    | cons e trail' =>
      rw [List.map_cons, List.map_cons, List.cons.injEq] at htargets hnames
      obtain rfl : d = e := hname d e (h.1.trans h'.1.symm) htargets.1 hnames.1
      rw [ih h.2 h'.2 htargets.2 hnames.2]

end SemantiST.Lib.Trail
