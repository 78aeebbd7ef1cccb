import SemantiST.Lib.Tries
import SemantiST.Stg.Dependencies
import SemantiST.Stg.SoundSummaries

/-!
# Slices

Two scans that start with the same values of the symbols a target depends on go the same way to it, if
what is recorded of the guards that are tried on the way decides them, and only then.
-/

namespace SemantiST.Stg

open Lib Semantic

/-! ## Scans -/

section

variable {Cell : Type} (I : Interpretation Cell) (holds : Value Cell → Bool) (g : SemanticGraph)

/-- An edge can be taken in a scan. -/
def enabled (σ : Store Cell) (edge : Edge) : Bool :=
  edge.id.kind ≠ .temporal && edge.guard.all fun guard => holds (typedValue I σ guard)

def nextEdge (node : NodeId) (σ : Store Cell) : Option Edge :=
  g.edges.find? fun edge => edge.id.source = node && enabled I holds σ edge

def scanStep (state : NodeId × Store Cell) : Option (NodeId × Store Cell) :=
  (nextEdge I holds g state.1 state.2).map fun edge =>
    (edge.id.target, executeAll I (edge.transfer.getD []) state.2)

/-- Where a scan is after so many steps. -/
def scanAfter : ℕ → NodeId × Store Cell → Option (NodeId × Store Cell)
  | 0, state => some state
  | k + 1, state => (scanStep I holds g state).bind (scanAfter k)

def nodeAfter (k : ℕ) (start : NodeId) (σ : Store Cell) : Option NodeId :=
  (scanAfter I holds g k (start, σ)).map Prod.fst

/-- The scan is at the target after so many steps, and not before. -/
def FirstReaches (start target : NodeId) (σ : Store Cell) (k : ℕ) : Prop :=
  nodeAfter I holds g k start σ = some target ∧ ∀ j < k, nodeAfter I holds g j start σ ≠ some target

/-- The hazard of the node where the scan is. -/
def hazardValue (k : ℕ) (start target : NodeId) (σ : Store Cell) : Option (Value Cell) :=
  (g.hazardAt target).bind fun e => (scanAfter I holds g k (start, σ)).map fun state => typedValue I state.2 e

/-- Two scans visit the same nodes until they are at the target, and find the same hazard there; or
neither ever is. -/
def SameUntil (start target : NodeId) (σ τ : Store Cell) : Prop :=
  (∃ k, FirstReaches I holds g start target σ k ∧ FirstReaches I holds g start target τ k ∧
    (∀ j ≤ k, nodeAfter I holds g j start σ = nodeAfter I holds g j start τ) ∧
    hazardValue I holds g k start target σ = hazardValue I holds g k start target τ) ∨
  ∀ k, ¬FirstReaches I holds g start target σ k ∧ ¬FirstReaches I holds g start target τ k

/-! ## Conditions -/

/-- The edges whose guards are tried in a scan that is at a node: those up to the one it takes. -/
def tried (node : NodeId) (σ : Store Cell) : List Edge :=
  tries (enabled I holds σ) (g.edges.filter fun edge => edge.id.source = node && edge.id.kind ≠ .temporal)

/-- What is recorded of a guard decides it between two stores. -/
def GuardDecided (edge : Edge) (σ τ : Store Cell) : Prop :=
  ∀ guard ∈ edge.guard, Agree Prod.fst {x | x ∈ guard.reads} σ τ →
    holds (typedValue I σ guard) = holds (typedValue I τ guard)

/-- In a step of a scan on its way to the target, what is recorded of the guards that are tried on edges
that lead on to it decides them, and another scan takes no other edge that is tried. -/
structure StepDecided (target node : NodeId) (σ τ : Store Cell) : Prop where
  leading : ∀ edge ∈ tried I holds g node σ, edge.id ∈ g.visitedEdges target →
    GuardDecided I holds edge σ τ
  other : ∀ edge ∈ tried I holds g node σ, edge.id ∉ g.visitedEdges target →
    enabled I holds τ edge = false

/-- What is recorded of a hazard decides it between two stores. -/
def HazardDecided (target : NodeId) (σ τ : Store Cell) : Prop :=
  ∀ e ∈ g.hazardAt target, Agree Prod.fst {x | x ∈ e.reads} σ τ → typedValue I σ e = typedValue I τ e

/-- Where the scans are after so many steps, if they are at the same node with stores that agree. -/
def Together (names : List Text) (k : ℕ) (start node : NodeId) (σ τ σ' τ' : Store Cell) : Prop :=
  scanAfter I holds g k (start, σ) = some (node, σ') ∧ scanAfter I holds g k (start, τ) = some (node, τ') ∧
    Agree Prod.fst {x | x ∈ names} σ' τ'

/-- All steps of a scan to the target are decided, and the hazard that it finds there is. -/
def Decided (names : List Text) (start target : NodeId) (σ τ : Store Cell) : Prop :=
  ∀ k, FirstReaches I holds g start target σ k →
    (∀ j < k, ∀ node σ' τ', Together I holds g names j start node σ τ σ' τ' →
      StepDecided I holds g target node σ' τ') ∧
    ∀ σ' τ', Together I holds g names k start target σ τ σ' τ' → HazardDecided I g target σ' τ'

/-- No two edges within a scan lead from one node to another one. -/
def SemanticGraph.Apart : Prop :=
  ∀ edge ∈ g.edges, ∀ edge' ∈ g.edges, edge.id.kind ≠ .temporal → edge'.id.kind ≠ .temporal →
    edge.id.source = edge'.id.source → edge.id.target = edge'.id.target → edge.id = edge'.id

variable {I holds g}

theorem eq_of_id {edge edge' : Edge} (hedge : edge ∈ g.edges) (hedge' : edge' ∈ g.edges)
    (h : edge.id = edge'.id) : edge = edge' :=
  List.inj_on_of_nodup_map g.nodupEdges hedge hedge' h

theorem nextEdge_spec {node : NodeId} {σ : Store Cell} {edge : Edge}
    (h : nextEdge I holds g node σ = some edge) :
    edge ∈ g.edges ∧ edge.id.source = node ∧ enabled I holds σ edge = true := by
  have hfound := List.find?_some h
  rw [Bool.and_eq_true, decide_eq_true_eq] at hfound
  exact ⟨List.mem_of_find?_eq_some h, hfound.1, hfound.2⟩

theorem kind_of_enabled {σ : Store Cell} {edge : Edge} (h : enabled I holds σ edge = true) :
    edge.id.kind ≠ .temporal := by
  rw [enabled, Bool.and_eq_true, decide_eq_true_eq] at h
  exact h.1

/-- From where a scan gets to the target, all edges that lead there are visited. -/
theorem incoming_visited {target : NodeId} (k : ℕ) {state : NodeId × Store Cell}
    (h : (scanAfter I holds g k state).map Prod.fst = some target) :
    g.incoming state.1 ⊆ g.visitedEdges target := by
  induction k generalizing state with
  | zero =>
    cases h
    exact (SemanticGraph.visitedEdges_closed _).1
  | succ k ih =>
    rw [scanAfter, scanStep] at h
    cases hnext : nextEdge I holds g state.1 state.2 with
    | none =>
      rw [hnext] at h
      cases h
    | some edge =>
      rw [hnext] at h
      obtain ⟨hedge, hsource, henabled⟩ := nextEdge_spec hnext
      have hvisited := ih h (SemanticGraph.mem_incoming hedge)
      rw [← hsource]
      exact (SemanticGraph.visitedEdges_closed target).2 edge.id hvisited (kind_of_enabled henabled)

/-! ## Single steps -/

theorem enabled_eq {edge : Edge} (hkind : edge.id.kind ≠ .temporal) (σ : Store Cell) :
    enabled I holds σ edge = edge.guard.all fun guard => holds (typedValue I σ guard) := by
  rw [enabled, decide_eq_true hkind, Bool.true_and]

theorem nextEdge_eq (node : NodeId) (σ : Store Cell) : nextEdge I holds g node σ =
    (g.edges.filter fun edge => edge.id.source = node && edge.id.kind ≠ .temporal).find?
      (enabled I holds σ) := by
  rw [List.find?_filter, nextEdge]
  congr 1
  funext edge
  by_cases hkind : edge.id.kind = .temporal
  · simp [enabled, hkind]
  · simp [hkind]

theorem mem_of_tried {node : NodeId} {σ : Store Cell} {edge : Edge} (h : edge ∈ tried I holds g node σ) :
    edge ∈ g.edges ∧ edge.id.source = node ∧ edge.id.kind ≠ .temporal := by
  have hmem := List.mem_filter.1 (mem_of_tries h)
  rw [Bool.and_eq_true, decide_eq_true_eq, decide_eq_true_eq] at hmem
  exact ⟨hmem.1, hmem.2.1, hmem.2.2⟩

theorem scanAfter_add (j m : ℕ) (state : NodeId × Store Cell) :
    scanAfter I holds g (j + m) state = (scanAfter I holds g j state).bind (scanAfter I holds g m) := by
  induction j generalizing state with
  | zero => rw [Nat.zero_add, scanAfter, Option.bind_some]
  | succ j ih =>
    rw [Nat.succ_add, scanAfter, scanAfter, Option.bind_assoc]
    exact congrArg _ (funext ih)

theorem scanAfter_succ {j : ℕ} {state state' : NodeId × Store Cell}
    (h : scanAfter I holds g j state = some state') :
    scanAfter I holds g (j + 1) state = scanStep I holds g state' := by
  rw [scanAfter_add, h, Option.bind_some, scanAfter]
  cases scanStep I holds g state' <;> rfl

variable {f : NameFacts} {target : NodeId}

/-- A scan on its way to the target takes an edge that leads on to it. -/
theorem next_of_reaches {start node : NodeId} {σ σ' : Store Cell} {j k : ℕ}
    (hreaches : nodeAfter I holds g k start σ = some target) (hj : j < k)
    (hstate : scanAfter I holds g j (start, σ) = some (node, σ')) :
    ∃ edge, nextEdge I holds g node σ' = some edge ∧ edge.id ∈ g.visitedEdges target := by
  obtain ⟨m, rfl⟩ := Nat.exists_eq_add_of_lt hj
  rw [nodeAfter, Nat.add_assoc, scanAfter_add, hstate, Option.bind_some, scanAfter, scanStep] at hreaches
  cases hnext : nextEdge I holds g node σ' with
  | none =>
    rw [hnext] at hreaches
    cases hreaches
  | some edge =>
    rw [hnext] at hreaches
    exact ⟨edge, rfl, incoming_visited m hreaches (SemanticGraph.mem_incoming (nextEdge_spec hnext).1)⟩

/-- A step that is decided takes the same edge in both scans. -/
theorem nextEdge_congr {node : NodeId} {σ τ : Store Cell} {next : Edge}
    (hagree : Agree Prod.fst {x | x ∈ g.backwardDependencies f target} σ τ)
    (hdecided : StepDecided I holds g target node σ τ) (hnext : nextEdge I holds g node σ = some next)
    (hvisited : next.id ∈ g.visitedEdges target) : nextEdge I holds g node τ = some next := by
  rw [nextEdge_eq] at hnext ⊢
  rw [← hnext]
  refine (find?_eq_of_tries fun edge hedge => ?_).symm
  obtain ⟨hmem, -, hkind⟩ := mem_of_tried hedge
  by_cases hleads : edge.id ∈ g.visitedEdges target
  · rw [enabled_eq hkind, enabled_eq hkind]
    cases hguard : edge.guard with
    | none => rfl
    | some guard =>
      have hreads := @SemanticGraph.edgeReads_subset g f target edge hmem hleads
      refine hdecided.leading edge hedge hleads guard hguard (hagree.mono Prod.fst fun x hx => hreads ?_)
      rw [SemanticGraph.edgeReads, hguard]
      exact List.mem_append_left _ (List.mem_append_left _ hx)
  · rw [hdecided.other edge hedge hleads, ← Bool.not_eq_true]
    intro henabled
    exact hleads (eq_of_tries hnext hedge henabled ▸ hvisited)

theorem executeAll_agree (hsummaries : ∀ edge ∈ g.edges, ∀ operations, edge.transfer = some operations →
      ∀ summary, edge.summary f = some summary → SoundSummary I operations summary)
    {edge : Edge} (hedge : edge ∈ g.edges) (hvisited : edge.id ∈ g.visitedEdges target) {σ τ : Store Cell}
    (hagree : Agree Prod.fst {x | x ∈ g.backwardDependencies f target} σ τ) :
    Agree Prod.fst {x | x ∈ g.backwardDependencies f target} (executeAll I (edge.transfer.getD []) σ)
      (executeAll I (edge.transfer.getD []) τ) := by
  cases htransfer : edge.transfer with
  | none => exact hagree
  | some operations =>
    have hsummary : ∃ summary, edge.summary f = some summary := by
      rw [Edge.summary, htransfer]
      exact ⟨_, rfl⟩
    obtain ⟨summary, hsummary⟩ := hsummary
    have hreads := @SemanticGraph.edgeReads_subset g f target edge hedge hvisited
    refine (hsummaries edge hedge operations htransfer summary hsummary).agree
      (hagree.mono Prod.fst fun x hx => hreads ?_) hagree
    rw [SemanticGraph.edgeReads, hsummary]
    exact List.mem_append_left _ (List.mem_append_right _ hx)


/-! ## Scans to the target -/

/-- A scan to the target takes the other one with it, if its steps are decided. -/
theorem together_of_decided (hsummaries : ∀ edge ∈ g.edges, ∀ operations, edge.transfer = some operations →
      ∀ summary, edge.summary f = some summary → SoundSummary I operations summary)
    {start : NodeId} {σ τ : Store Cell} {k : ℕ}
    (hdecided : Decided I holds g (g.backwardDependencies f target) start target σ τ)
    (hagree : Agree Prod.fst {x | x ∈ g.backwardDependencies f target} σ τ)
    (hk : FirstReaches I holds g start target σ k) : ∀ j ≤ k, ∃ node σ' τ',
      Together I holds g (g.backwardDependencies f target) j start node σ τ σ' τ' := by
  intro j
  induction j with
  | zero => exact fun _ => ⟨start, σ, τ, rfl, rfl, hagree⟩
  | succ j ih =>
    intro hj
    obtain ⟨node, σ', τ', htogether⟩ := ih (Nat.le_of_succ_le hj)
    obtain ⟨hσ', hτ', hagree'⟩ := htogether
    obtain ⟨edge, hnext, hvisited⟩ := next_of_reaches hk.1 hj hσ'
    have hnext' := nextEdge_congr hagree' ((hdecided k hk).1 j hj node σ' τ' ⟨hσ', hτ', hagree'⟩) hnext hvisited
    refine ⟨edge.id.target, _, _, ?_, ?_,
      executeAll_agree hsummaries (nextEdge_spec hnext).1 hvisited hagree'⟩
    · rw [scanAfter_succ hσ', scanStep, hnext]
      rfl
    · rw [scanAfter_succ hτ', scanStep, hnext']
      rfl

theorem nodeAfter_of_together {names : List Text} {start node : NodeId} {σ τ σ' τ' : Store Cell} {k : ℕ}
    (h : Together I holds g names k start node σ τ σ' τ') :
    nodeAfter I holds g k start σ = some node ∧ nodeAfter I holds g k start τ = some node := by
  rw [nodeAfter, nodeAfter, h.1, h.2.1]
  exact ⟨rfl, rfl⟩

theorem firstReaches_congr (hsummaries : ∀ edge ∈ g.edges, ∀ operations, edge.transfer = some operations →
      ∀ summary, edge.summary f = some summary → SoundSummary I operations summary)
    {start : NodeId} {σ τ : Store Cell} {k : ℕ}
    (hdecided : Decided I holds g (g.backwardDependencies f target) start target σ τ)
    (hagree : Agree Prod.fst {x | x ∈ g.backwardDependencies f target} σ τ)
    (hk : FirstReaches I holds g start target σ k) :
    FirstReaches I holds g start target τ k ∧
      (∀ j ≤ k, nodeAfter I holds g j start σ = nodeAfter I holds g j start τ) ∧
      hazardValue I holds g k start target σ = hazardValue I holds g k start target τ := by
  have htogether := together_of_decided hsummaries hdecided hagree hk
  have hnodes : ∀ j ≤ k, nodeAfter I holds g j start σ = nodeAfter I holds g j start τ := by
    intro j hj
    obtain ⟨node, σ', τ', h⟩ := htogether j hj
    rw [(nodeAfter_of_together h).1, (nodeAfter_of_together h).2]
  refine ⟨⟨?_, fun j hj => ?_⟩, hnodes, ?_⟩
  · rw [← hnodes k (Nat.le_refl k)]
    exact hk.1
  · rw [← hnodes j (Nat.le_of_lt hj)]
    exact hk.2 j hj
  · obtain ⟨node, σ', τ', h⟩ := htogether k (Nat.le_refl k)
    obtain rfl : node = target := Option.some.inj ((nodeAfter_of_together h).1.symm.trans hk.1)
    rw [hazardValue, hazardValue, h.1, h.2.1]
    cases hhazard : g.hazardAt node with
    | none => rfl
    | some e =>
      have hvalue := (hdecided k hk).2 σ' τ' h e hhazard (h.2.2.mono Prod.fst fun x hx =>
        SemanticGraph.hazardReads_subset hhazard hx)
      show some (typedValue I σ' e) = some (typedValue I τ' e)
      rw [hvalue]

theorem SameUntil.symm {start : NodeId} {σ τ : Store Cell} (h : SameUntil I holds g start target σ τ) :
    SameUntil I holds g start target τ σ := by
  rcases h with ⟨k, hk, hk', hnodes, hhazard⟩ | hnever
  · exact .inl ⟨k, hk', hk, fun j hj => (hnodes j hj).symm, hhazard.symm⟩
  · exact .inr fun k => (hnever k).symm

theorem firstReaches_unique {start : NodeId} {σ : Store Cell} {k k' : ℕ}
    (h : FirstReaches I holds g start target σ k) (h' : FirstReaches I holds g start target σ k') : k = k' := by
  rcases Nat.lt_trichotomy k k' with hlt | heq | hgt
  · exact absurd h.1 (h'.2 k hlt)
  · exact heq
  · exact absurd h'.1 (h.2 k' hgt)

/-- Scans that go the same way take the same edges. -/
theorem nextEdge_of_nodes (hapart : g.Apart) {start node : NodeId} {σ τ σ' τ' : Store Cell} {j : ℕ} {edge : Edge}
    (hσ' : scanAfter I holds g j (start, σ) = some (node, σ'))
    (hτ' : scanAfter I holds g j (start, τ) = some (node, τ'))
    (hnodes : nodeAfter I holds g (j + 1) start σ = nodeAfter I holds g (j + 1) start τ)
    (hnext : nextEdge I holds g node σ' = some edge) : nextEdge I holds g node τ' = some edge := by
  rw [nodeAfter, nodeAfter, scanAfter_succ hσ', scanAfter_succ hτ', scanStep, scanStep, hnext] at hnodes
  cases hnext' : nextEdge I holds g node τ' with
  | none =>
    rw [hnext'] at hnodes
    cases hnodes
  | some edge' =>
    rw [hnext'] at hnodes
    obtain ⟨hedge, hsource, henabled⟩ := nextEdge_spec hnext
    obtain ⟨hedge', hsource', henabled'⟩ := nextEdge_spec hnext'
    have hid := hapart edge hedge edge' hedge' (kind_of_enabled henabled) (kind_of_enabled henabled')
      (hsource.trans hsource'.symm) (Option.some.inj hnodes)
    rw [eq_of_id hedge hedge' hid]

theorem stepDecided_of_nextEdge {node : NodeId} {σ τ : Store Cell} {next : Edge}
    (hnext : nextEdge I holds g node σ = some next) (hnext' : nextEdge I holds g node τ = some next)
    (hvisited : next.id ∈ g.visitedEdges target) : StepDecided I holds g target node σ τ := by
  rw [nextEdge_eq] at hnext hnext'
  have hnodup := (List.Nodup.of_map Edge.id g.nodupEdges).filter
    fun edge => edge.id.source = node && edge.id.kind ≠ .temporal
  have hsame := eq_of_find?_eq hnodup hnext hnext'
  constructor
  · intro edge hedge _ guard hguard _
    have hkind := (mem_of_tried hedge).2.2
    have henabled := hsame edge hedge
    rw [enabled_eq hkind, enabled_eq hkind, Option.mem_def.1 hguard] at henabled
    exact henabled
  · intro edge hedge hleads
    rw [← hsame edge hedge, ← Bool.not_eq_true]
    intro henabled
    exact hleads (eq_of_tries hnext hedge henabled ▸ hvisited)

/-- Scans that go the same way do so by steps that are decided. -/
theorem decided_of_sameUntil (hapart : g.Apart) {names : List Text} {start : NodeId} {σ τ : Store Cell}
    (h : SameUntil I holds g start target σ τ) : Decided I holds g names start target σ τ := by
  intro k hk
  rcases h with ⟨k', hk', -, hnodes, hhazard⟩ | hnever
  · obtain rfl := firstReaches_unique hk hk'
    constructor
    · rintro j hj node σ' τ' ⟨hσ', hτ', -⟩
      obtain ⟨edge, hnext, hvisited⟩ := next_of_reaches hk.1 hj hσ'
      exact stepDecided_of_nextEdge hnext (nextEdge_of_nodes hapart hσ' hτ' (hnodes (j + 1) hj) hnext) hvisited
    · rintro σ' τ' ⟨hσ', hτ', -⟩ e he _
      rw [hazardValue, hazardValue, hσ', hτ', Option.mem_def.1 he] at hhazard
      exact Option.some.inj hhazard
  · exact absurd hk (hnever k).1

/-- The steps of all scans to the target are decided where names decide the guards and the hazard, and the
target depends on all names that the guards of the nodes on the ways to it read. -/
theorem decided_of_known {start : NodeId} {σ τ : Store Cell}
    (hhazard : ∀ e ∈ g.hazardAt target, ∃ names, names ∈ e.valueUses I.references)
    (hguards : ∀ edge ∈ g.edges, edge.id ∈ g.visitedEdges target → ∀ edge' ∈ g.edges,
      edge'.id.source = edge.id.source → ∀ guard ∈ edge'.guard,
        (∃ names, names ∈ guard.valueUses I.references) ∧ guard.reads ⊆ g.backwardDependencies f target) :
    Decided I holds g (g.backwardDependencies f target) start target σ τ := by
  have hdecides : ∀ {e : TypedExpression}, (∃ names, names ∈ e.valueUses I.references) → ∀ {σ τ : Store Cell},
      Agree Prod.fst {x | x ∈ e.reads} σ τ → typedValue I σ e = typedValue I τ e := by
    rintro e ⟨names, hnames⟩ σ τ hagree
    exact (typedValue_decided I e).eq hnames (hagree.mono Prod.fst fun x hx =>
      valueUses_subset I.references e names hnames hx)
  intro k hk
  constructor
  · rintro j hj node σ' τ' ⟨hσ', hτ', hagree⟩
    obtain ⟨next, hnext, hvisited⟩ := next_of_reaches hk.1 hj hσ'
    obtain ⟨hmem, hsource, -⟩ := nextEdge_spec hnext
    have hguard : ∀ edge ∈ tried I holds g node σ', ∀ guard ∈ edge.guard,
        (∃ names, names ∈ guard.valueUses I.references) ∧ guard.reads ⊆ g.backwardDependencies f target :=
      fun edge hedge => hguards next hmem hvisited edge (mem_of_tried hedge).1
        ((mem_of_tried hedge).2.1.trans hsource.symm)
    constructor
    · intro edge hedge _ guard hmem hreads
      rw [hdecides (hguard edge hedge guard hmem).1 hreads]
    · intro edge hedge hleads
      have hdisabled : enabled I holds σ' edge = false := by
        rw [← Bool.not_eq_true]
        intro henabled
        rw [nextEdge_eq] at hnext
        exact hleads (eq_of_tries hnext hedge henabled ▸ hvisited)
      rw [← hdisabled, enabled_eq (mem_of_tried hedge).2.2, enabled_eq (mem_of_tried hedge).2.2]
      cases hsome : edge.guard with
      | none => rfl
      | some guard =>
        obtain ⟨hknown, hreads⟩ := hguard edge hedge guard hsome
        have hvalue := hdecides hknown (hagree.mono Prod.fst fun x hx => hreads hx)
        rw [Option.all_some, Option.all_some, hvalue]
  · rintro σ' τ' - e he hreads
    exact hdecides (hhazard e he) hreads

end

/-! ## Guards -/

def guardStatements (condition : AstExpr) : List Statement :=
  [.ifs ⟨0, 20⟩ [⟨condition, [.empty ⟨12, 13⟩]⟩] []]

/-- `IF condition THEN ; END_IF` -/
def guardPou (condition : AstExpr) (placed : Placed (rootsOf (guardStatements condition)))
    (hspan : condition.span = ⟨3, 7⟩) : Pou where
  stateful := false
  span := ⟨0, 20⟩
  initialValues := []
  statements := guardStatements condition
  placed := placed
  nodupStatements := by simp [guardStatements, spansOf, spansOfBlocks, Statement.spans]
  statementSpan := by
    simp [guardStatements, rootsOf, rootsOfBlocks, Statement.roots, spansOf, spansOfBlocks,
      Statement.spans, hspan]

def pointerGuard : AstExpr :=
  ⟨0, ⟨3, 7⟩, .reference .deref none, "DINT".toList, [variableAt 1 3 "main.p".toList]⟩

/-- `IF p^ THEN ; END_IF` -/
def pointerGuarded : Pou :=
  guardPou pointerGuard ⟨by decide +kernel, by decide +kernel, by
    simp [pointerGuard, guardStatements, variableAt, rootsOf, rootsOfBlocks, Statement.roots, nodesOfAll,
      AstExpr.nodes, leaf]⟩ rfl

theorem graphOf_nodupEdges (a : Annotations) (pou : Pou) : ((graphOf a pou).edges.map Edge.id).Nodup := by
  apply List.Nodup.of_map EdgeId.ordinal
  rw [List.map_map]
  exact (graphOf_step a pou).valid.edgeOrdinals ▸ List.nodup_range

def guardGraph (pou : Pou) : SemanticGraph :=
  (graphOf plainAnnotations pou).semanticGraph [] (graphOf_nodupEdges plainAnnotations pou)

/-- Numbers, where 7 is the address of `main.y`. -/
def pointers : Interpretation ℤ :=
  { integers with pointee := fun value => if value [] = 7 then some ⟨"main.y".toList, []⟩ else none }

/-- A number holds unless it is zero. -/
def nonzero (value : Value ℤ) : Bool := value [] ≠ 0

/-- Every variable is 7, but for `main.y`. -/
def withPointee (value : ℤ) : Store ℤ := fun l => if l.1 = "main.y".toList then value else 7

theorem agree_withPointee {names : List Text} (h : "main.y".toList ∉ names) (value value' : ℤ) :
    Agree Prod.fst {x | x ∈ names} (withPointee value) (withPointee value') := by
  intro l hl
  have hne : l.1 ≠ "main.y".toList := fun heq => h (heq ▸ hl)
  rw [withPointee, withPointee, if_neg hne, if_neg hne]

/-- Nothing happens on the edges of a graph. -/
theorem soundSummaries_of_empty {g : SemanticGraph} {f : NameFacts}
    (h : g.edges.all (fun edge => (edge.transfer.getD []).isEmpty) = true) {Cell : Type}
    (I : Interpretation Cell) : ∀ edge ∈ g.edges, ∀ operations, edge.transfer = some operations →
      ∀ summary, edge.summary f = some summary → SoundSummary I operations summary := by
  intro edge hedge operations htransfer summary _
  have hempty := List.all_eq_true.1 h edge hedge
  rw [htransfer, Option.getD_some, List.isEmpty_iff] at hempty
  subst hempty
  exact Footprint.unchanged

/-- Numbers that are compared. -/
def comparisons : Interpretation ℤ :=
  { integers with
    operator := fun kind typeName operands path =>
      match kind, operands with
      | .binary operator, [left, right] =>
        if operator = ">=".toList then if right path ≤ left path then 1 else 0
        else if operator = "<=".toList then if left path ≤ right path then 1 else 0
        else left path * right path
      | _, _ => integers.operator kind typeName operands path }

def rangeAt (id start : ℕ) (low high : Text) : AstExpr :=
  ⟨id, ⟨start, start + 4⟩, .range, "DINT".toList,
    [leaf (id + 1) start 1 (.literal (.integer low)), leaf (id + 2) (start + 3) 1 (.literal (.integer high))]⟩

def overlappingStatements : List Statement :=
  [.cases ⟨0, 40⟩ (variableAt 0 5 "main.x".toList)
    [⟨rangeAt 2 10 "1".toList "5".toList, [.empty ⟨15, 16⟩]⟩,
      ⟨rangeAt 5 20 "3".toList "7".toList, [.empty ⟨25, 26⟩]⟩] []]

/-- `CASE x OF 1..5: ; 3..7: ; END_CASE` -/
def overlapping : Pou where
  stateful := false
  span := ⟨0, 40⟩
  initialValues := []
  statements := overlappingStatements
  placed := ⟨by decide +kernel, by decide +kernel, by
    simp [overlappingStatements, rangeAt, variableAt, rootsOf, rootsOfBlocks, Statement.roots, caseLabels,
      nodesOfAll, AstExpr.nodes, leaf]⟩
  nodupStatements := by simp [overlappingStatements, spansOf, spansOfBlocks, Statement.spans]
  statementSpan := by
    simp [overlappingStatements, rangeAt, variableAt, rootsOf, rootsOfBlocks, Statement.roots, caseLabels, spansOf,
      spansOfBlocks, Statement.spans, leaf]

/-- Where `3..7` is chosen. -/
def secondLabel : NodeId := ⟨.outcome, some ⟨20, 24⟩, 1024⟩

end SemantiST.Stg
