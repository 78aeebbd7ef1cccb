import SemantiST.Lib.FlowGraph
import Mathlib.Tactic.Common

/-!
# Detours

Edges of one block that lead through new blocks, one for each of them.  Such a function is valid when the blocks behind
these edges have no phi nodes and are not made for exceptions, and it then does what the function without detours does.
-/

namespace SemantiST.Lib.FlowGraph

variable {ι τ ν σ ε : Type}

/-- The new block of an edge: its number, and what it does. -/
structure Detour (ι : Type) where
  block : ℕ
  body : List ι

/-- `f'` is `f` with detours for some edges of block `b`. -/
structure Detoured (jump : τ) (f f' : Graph ι τ ν) (b : ℕ) (B : Block ι τ ν) (detour : ℕ → Option (Detour ι)) : Prop where
  source : f[b]? = some B
  redirected : ∃ successors, f'[b]? = some { B with successors := successors } ∧
    ∀ i, successors[i]? = (B.successors[i]?).map fun d => (detour i).elim d Detour.block
  kept : ∀ a < f.length, a ≠ b → f'[a]? = f[a]?
  inserted : ∀ i x, detour i = some x → f.length ≤ x.block ∧
    ∃ d, B.successors[i]? = some d ∧ f'[x.block]? = some ⟨[], x.body, jump, [d]⟩
  only : ∀ p P, f.length ≤ p → f'[p]? = some P → ∃ i x, detour i = some x ∧ x.block = p
  injective : ∀ i j x y, detour i = some x → detour j = some y → x.block = y.block → i = j

/-- Detours use and define no names. -/
structure Transparent (L : Language ι τ ν) (jump : τ) (detour : ℕ → Option (Detour ι)) : Prop where
  body : ∀ i x, detour i = some x → ∀ o ∈ x.body, L.uses o = [] ∧ L.defines o = [] ∧ L.isPad o = false
  uses : L.branchUses jump = []
  defines : ∀ i, L.branchDefines jump i = []
  unwinds : ∀ i, L.unwinds jump i = false

/-- The blocks behind the edges that have detours. -/
def Behind (f : Graph ι τ ν) (B : Block ι τ ν) (detour : ℕ → Option (Detour ι)) (P : Block ι τ ν → Prop) : Prop :=
  ∀ i x d D, detour i = some x → B.successors[i]? = some d → f[d]? = some D → P D

theorem count_congr {l l' : List ℕ} {d : ℕ} (h : ∀ i : ℕ, l[i]? = some d ↔ l'[i]? = some d) : l.count d = l'.count d := by
  induction l generalizing l' with
  | nil =>
    rw [List.count_nil, eq_comm, List.count_eq_zero]
    intro hmem
    obtain ⟨i, hi⟩ := List.mem_iff_getElem?.1 hmem
    cases (h i).2 hi
  | cons a l ih =>
    rcases l' with _ | ⟨a', l'⟩
    · rw [List.count_nil, List.count_eq_zero]
      intro hmem
      obtain ⟨i, hi⟩ := List.mem_iff_getElem?.1 hmem
      cases (h i).1 hi
    · have hhead : a = d ↔ a' = d := by simpa using h 0
      rw [List.count_cons, List.count_cons, ih fun i => by simpa using h (i + 1)]
      simp only [beq_iff_eq, hhead]

/-! ## Valid detours -/

section Valid

variable {L : Language ι τ ν} {jump : τ} {f f' : Graph ι τ ν} {b : ℕ} {B : Block ι τ ν}
  {detour : ℕ → Option (Detour ι)}

theorem lt_length_of_getElem? {g : Graph ι τ ν} {a : ℕ} {A : Block ι τ ν} (h : g[a]? = some A) : a < g.length :=
  (List.getElem?_eq_some_iff.1 h).1

/-- The blocks of a function with detours: the one that they start from, those that are kept, and the new ones. -/
theorem Detoured.cases (hd : Detoured jump f f' b B detour) {a : ℕ} {A : Block ι τ ν} (h : f'[a]? = some A) :
    (a = b ∧ A.phis = B.phis ∧ A.body = B.body ∧ A.terminator = B.terminator ∧
      ∀ i, A.successors[i]? = (B.successors[i]?).map fun d => (detour i).elim d Detour.block) ∨
    (a ≠ b ∧ f[a]? = some A) ∨
    ∃ i x d, detour i = some x ∧ x.block = a ∧ f.length ≤ a ∧ B.successors[i]? = some d ∧ A = ⟨[], x.body, jump, [d]⟩ := by
  rcases Nat.lt_or_ge a f.length with hlt | hge
  · by_cases hab : a = b
    · obtain ⟨successors, hB, hsuccessors⟩ := hd.redirected
      rw [hab, hB] at h
      obtain rfl := Option.some.inj h
      exact Or.inl ⟨hab, rfl, rfl, rfl, hsuccessors⟩
    · rw [hd.kept a hlt hab] at h
      exact Or.inr (Or.inl ⟨hab, h⟩)
  · obtain ⟨i, x, hx, rfl⟩ := hd.only a A hge h
    obtain ⟨-, d, hdest, hP⟩ := hd.inserted i x hx
    rw [hP] at h
    exact Or.inr (Or.inr ⟨i, x, d, hx, rfl, hge, hdest, (Option.some.inj h).symm⟩)

/-- Every block of the function is there, but for its successors. -/
theorem Detoured.block (hd : Detoured jump f f' b B detour) {a : ℕ} {A : Block ι τ ν} (h : f[a]? = some A) :
    ∃ A' : Block ι τ ν, f'[a]? = some A' ∧ A'.phis = A.phis ∧ A'.body = A.body := by
  by_cases hab : a = b
  · obtain ⟨successors, hB, -⟩ := hd.redirected
    rw [hab, hd.source] at h
    obtain rfl := Option.some.inj h
    exact ⟨{ B with successors := successors }, by rw [hab, hB], rfl, rfl⟩
  · exact ⟨A, (hd.kept a (lt_length_of_getElem? h) hab).trans h, rfl, rfl⟩

theorem isPad_congr {A A' : Block ι τ ν} (h : A'.body = A.body) : A'.isPad L = A.isPad L := by
  rw [Block.isPad, Block.isPad, h]

theorem defines_congr {A A' : Block ι τ ν} (hphis : A'.phis = A.phis) (hbody : A'.body = A.body) :
    A'.defines L = A.defines L := by rw [Block.defines, Block.defines, hphis, hbody]

theorem Transparent.defines_new (ht : Transparent L jump detour) {i : ℕ} {x : Detour ι} (hx : detour i = some x)
    (successors : List ℕ) : Block.defines L (⟨[], x.body, jump, successors⟩ : Block ι τ ν) = [] := by
  rw [Block.defines, List.map_nil, List.nil_append, List.flatMap_eq_nil_iff]
  exact fun o ho => (ht.body i x hx o ho).2.1

theorem Transparent.isPad_new (ht : Transparent L jump detour) {i : ℕ} {x : Detour ι} (hx : detour i = some x)
    (successors : List ℕ) : Block.isPad L (⟨[], x.body, jump, successors⟩ : Block ι τ ν) = false := by
  rw [Block.isPad]
  rcases hbody : x.body with _ | ⟨o, body⟩
  · rfl
  · exact (ht.body i x hx o (hbody ▸ List.mem_cons_self)).2.2

/-- What is defined along a path with detours is defined along the path without them. -/
theorem Detoured.defined (hv : Valid L f) (hd : Detoured jump f f' b B detour) (ht : Transparent L jump detour) {a : ℕ}
    {names : List ℕ} (h : Defined L f' a names) :
    (a < f.length → Defined L f a names) ∧ ∀ i x, detour i = some x → x.block = a →
      ∃ before, Defined L f b before ∧ names = before ++ (B.defines L ++ L.branchDefines B.terminator i) := by
  induction h with
  | entry =>
    refine ⟨fun _ => .entry, fun i x hx hzero => ?_⟩
    obtain ⟨E, hE⟩ := hv.entry
    have := (hd.inserted i x hx).1
    have := lt_length_of_getElem? hE
    omega
  | @edge a i d names A _ hA hi ih =>
    rcases hd.cases hA with ⟨rfl, hphis, hbody, hterm, hsuccessors⟩ | ⟨-, hA'⟩ | ⟨j, x, d', hx, hxa, hge, hd', rfl⟩
    · have hpath := ih.1 (lt_length_of_getElem? hd.source)
      rw [hsuccessors] at hi
      obtain ⟨e, he, hdest⟩ := Option.map_eq_some_iff.1 hi
      rw [defines_congr hphis hbody, hterm]
      rcases hdetour : detour i with _ | y
      · rw [hdetour] at hdest
        obtain rfl : e = d := hdest
        refine ⟨fun _ => hpath.edge hd.source he, fun j z hz hblock => ?_⟩
        obtain ⟨-, D, hD⟩ := hv.targets a B hd.source e (List.mem_of_getElem? he)
        have := lt_length_of_getElem? hD
        have := (hd.inserted j z hz).1
        omega
      · rw [hdetour] at hdest
        obtain rfl : y.block = d := hdest
        refine ⟨fun hlt => ?_, fun j z hz hblock => ?_⟩
        · have := (hd.inserted i y hdetour).1
          omega
        · rw [hd.injective j i z y hz hdetour hblock]
          exact ⟨names, hpath, rfl⟩
    · obtain ⟨-, D, hD⟩ := hv.targets a A hA' d (List.mem_of_getElem? hi)
      have hlt := lt_length_of_getElem? hD
      refine ⟨fun _ => (ih.1 (lt_length_of_getElem? hA')).edge hA' hi, fun j z hz hblock => ?_⟩
      have := (hd.inserted j z hz).1
      omega
    · obtain ⟨before, hbefore, rfl⟩ := ih.2 j x hx hxa
      rw [ht.defines_new hx, ht.defines, List.append_nil, List.append_nil]
      have hi' : i = 0 ∧ d' = d := by
        rcases i with _ | i
        · exact ⟨rfl, Option.some.inj hi⟩
        · cases hi
      obtain ⟨-, rfl⟩ := hi'
      refine ⟨fun _ => hbefore.edge hd.source hd', fun k z hz hblock => ?_⟩
      obtain ⟨-, D, hD⟩ := hv.targets b B hd.source d' (List.mem_of_getElem? hd')
      have := lt_length_of_getElem? hD
      have := (hd.inserted k z hz).1
      omega

/-- Edges into a block with phi nodes stay, when no detour leads there. -/
theorem Detoured.edges_eq (hd : Detoured jump f f' b B detour)
    (hbehind : Behind f B detour fun D => D.phis = []) {d : ℕ} {D : Block ι τ ν} (hD : f[d]? = some D) {φ : Phi ν}
    (hφ : φ ∈ D.phis) (a : ℕ) : edges f' a d = edges f a d := by
  have hne {i : ℕ} {x : Detour ι} (hx : detour i = some x) : B.successors[i]? ≠ some d := by
    intro hi
    rw [hbehind i x d D hx hi hD] at hφ
    cases hφ
  have hlt := lt_length_of_getElem? hD
  rw [edges, edges]
  rcases hA : f'[a]? with _ | A
  · rcases hA' : f[a]? with _ | A'
    · rfl
    · obtain ⟨A'', hA'', -⟩ := hd.block hA'
      rw [hA] at hA''
      cases hA''
  · rcases hd.cases hA with ⟨rfl, -, -, -, hsuccessors⟩ | ⟨-, hA'⟩ | ⟨i, x, e, hx, rfl, hge, he, rfl⟩
    · rw [hd.source]
      apply count_congr
      intro i
      change A.successors[i]? = some d ↔ B.successors[i]? = some d
      rw [hsuccessors]
      rcases hdetour : detour i with _ | x
      · simp
      · have := (hd.inserted i x hdetour).1
        refine iff_of_false ?_ (hne hdetour)
        intro h
        obtain ⟨e, -, he⟩ := Option.map_eq_some_iff.1 h
        have : x.block = d := he
        omega
    · rw [hA']
    · have hnone : f[x.block]? = none := List.getElem?_eq_none hge
      have hed : e ≠ d := fun h => hne hx (h ▸ he)
      rw [hnone]
      simp [hed]

/-- **A function with detours is valid when they lead to blocks without phi nodes, and not to blocks for exceptions.** -/
theorem Detoured.valid (hv : Valid L f) (hd : Detoured jump f f' b B detour) (ht : Transparent L jump detour)
    (hphis : Behind f B detour fun D => D.phis = []) (hpads : Behind f B detour fun D => D.isPad L = false) :
    Valid L f' where
  entry := by
    obtain ⟨E, hE⟩ := hv.entry
    obtain ⟨E', hE', -⟩ := hd.block hE
    exact ⟨E', hE'⟩
  targets := by
    intro a A hA d hmem
    have old {e : ℕ} (he : e ≠ 0 ∧ ∃ D : Block ι τ ν, f[e]? = some D) : e ≠ 0 ∧ ∃ D : Block ι τ ν, f'[e]? = some D := by
      obtain ⟨hne, D, hD⟩ := he
      obtain ⟨D', hD', -⟩ := hd.block hD
      exact ⟨hne, D', hD'⟩
    rcases hd.cases hA with ⟨rfl, -, -, -, hsuccessors⟩ | ⟨-, hA'⟩ | ⟨i, x, e, hx, -, -, he, rfl⟩
    · obtain ⟨i, hi⟩ := List.mem_iff_getElem?.1 hmem
      rw [hsuccessors] at hi
      obtain ⟨e, he, hdest⟩ := Option.map_eq_some_iff.1 hi
      have htarget := hv.targets a B hd.source e (List.mem_of_getElem? he)
      rcases hdetour : detour i with _ | x
      · rw [hdetour] at hdest
        obtain rfl : e = d := hdest
        exact old htarget
      · rw [hdetour] at hdest
        obtain rfl : x.block = d := hdest
        obtain ⟨hge, _, _, hP⟩ := hd.inserted i x hdetour
        have := lt_length_of_getElem? hd.source
        exact ⟨by omega, _, hP⟩
    · exact old (hv.targets a A hA' d hmem)
    · obtain rfl := List.mem_singleton.1 hmem
      exact old (hv.targets b B hd.source d (List.mem_of_getElem? he))
  phis := by
    intro d D' hD' φ hφ a
    rcases hd.cases hD' with ⟨rfl, hsame, -⟩ | ⟨-, hD⟩ | ⟨i, x, e, -, -, -, -, rfl⟩
    · rw [hsame] at hφ
      rw [hd.edges_eq hphis hd.source hφ, hv.phis d B hd.source φ hφ]
    · rw [hd.edges_eq hphis hD hφ, hv.phis d D' hD φ hφ]
    · cases hφ
  coherent := by
    intro d D' hD' φ hφ
    rcases hd.cases hD' with ⟨rfl, hsame, -⟩ | ⟨-, hD⟩ | ⟨i, x, e, -, -, -, -, rfl⟩
    · rw [hsame] at hφ
      exact hv.coherent d B hd.source φ hφ
    · exact hv.coherent d D' hD φ hφ
    · cases hφ
  pads := by
    intro a A hA i d D' hi hD'
    -- blocks of the function keep their bodies
    have kept {e : ℕ} {E E' : Block ι τ ν} (hE : f[e]? = some E) (hE' : f'[e]? = some E') : E'.isPad L = E.isPad L := by
      obtain ⟨E'', hE'', -, hbody⟩ := hd.block hE
      rw [hE'] at hE''
      obtain rfl := Option.some.inj hE''
      exact isPad_congr hbody
    rcases hd.cases hA with ⟨rfl, -, -, hterm, hsuccessors⟩ | ⟨-, hA'⟩ | ⟨j, x, e, hx, -, -, he, rfl⟩
    · rw [hsuccessors] at hi
      obtain ⟨e, he, hdest⟩ := Option.map_eq_some_iff.1 hi
      obtain ⟨-, E, hE⟩ := hv.targets a B hd.source e (List.mem_of_getElem? he)
      rw [hterm, hv.pads a B hd.source i e E he hE]
      rcases hdetour : detour i with _ | x
      · rw [hdetour] at hdest
        obtain rfl : e = d := hdest
        exact (kept hE hD').symm
      · rw [hdetour] at hdest
        obtain rfl : x.block = d := hdest
        obtain ⟨_, _, _, hP⟩ := hd.inserted i x hdetour
        rw [hP] at hD'
        obtain rfl := Option.some.inj hD'
        rw [hpads i x e E hdetour he hE, ht.isPad_new hdetour]
    · obtain ⟨-, D, hD⟩ := hv.targets a A hA' d (List.mem_of_getElem? hi)
      rw [hv.pads a A hA' i d D hi hD, kept hD hD']
    · rw [ht.unwinds]
      have hi' : e = d := by
        rcases i with _ | i
        · exact Option.some.inj hi
        · cases hi
      subst hi'
      obtain ⟨-, D, hD⟩ := hv.targets b B hd.source e (List.mem_of_getElem? he)
      rw [kept hD hD', hpads j x e D hx he hD]
  distinct := by
    intro a A hA
    rcases hd.cases hA with ⟨rfl, hsame, hbody, -⟩ | ⟨-, hA'⟩ | ⟨i, x, e, hx, -, -, -, rfl⟩
    · rw [defines_congr hsame hbody]
      exact hv.distinct a B hd.source
    · exact hv.distinct a A hA'
    · rw [ht.defines_new hx]
      exact List.nodup_nil
  single := by
    -- a block that defines a name is a block of the function, with the same definitions
    have old {a : ℕ} {A : Block ι τ ν} {x : ℕ} (hA : f'[a]? = some A) (hx : x ∈ A.defines L) :
        ∃ A' : Block ι τ ν, f[a]? = some A' ∧ x ∈ A'.defines L := by
      rcases hd.cases hA with ⟨rfl, hsame, hbody, -⟩ | ⟨-, hA'⟩ | ⟨i, y, e, hy, -, -, -, rfl⟩
      · exact ⟨B, hd.source, defines_congr (L := L) hsame hbody ▸ hx⟩
      · exact ⟨A, hA', hx⟩
      · rw [ht.defines_new hy] at hx
        cases hx
    intro a a' A A' hA hA' x hx hx'
    obtain ⟨C, hC, hxC⟩ := old hA hx
    obtain ⟨C', hC', hxC'⟩ := old hA' hx'
    exact hv.single a a' C C' hC hC' x hxC hxC'
  bodies := by
    intro a A names hA hnames before o after hsplit x hx
    obtain ⟨hold, -⟩ := hd.defined hv ht hnames
    rcases hd.cases hA with ⟨rfl, hsame, hbody, -⟩ | ⟨-, hA'⟩ | ⟨i, y, e, hy, -, -, -, rfl⟩
    · rw [hsame]
      exact hv.bodies a B names hd.source (hold (lt_length_of_getElem? hd.source)) before o after (hbody ▸ hsplit) x hx
    · exact hv.bodies a A names hA' (hold (lt_length_of_getElem? hA')) before o after hsplit x hx
    · have ho : o ∈ y.body := by
        rw [show y.body = before ++ o :: after from hsplit]
        exact List.mem_append_right _ List.mem_cons_self
      rw [(ht.body i y hy o ho).1] at hx
      cases hx
  branches := by
    intro a A names hA hnames x hx
    obtain ⟨hold, -⟩ := hd.defined hv ht hnames
    rcases hd.cases hA with ⟨rfl, hsame, hbody, hterm, -⟩ | ⟨-, hA'⟩ | ⟨i, y, e, hy, -, -, -, rfl⟩
    · rw [defines_congr hsame hbody]
      exact hv.branches a B names hd.source (hold (lt_length_of_getElem? hd.source)) x (hterm ▸ hx)
    · exact hv.branches a A names hA' (hold (lt_length_of_getElem? hA')) x hx
    · rw [ht.uses] at hx
      cases hx
  operands := by
    intro a A names hA hnames i d D' hi hD' φ hφ v hmem x hx
    obtain ⟨hold, -⟩ := hd.defined hv ht hnames
    have phiBlock : ∃ D : Block ι τ ν, f[d]? = some D ∧ φ ∈ D.phis := by
      rcases hd.cases hD' with ⟨rfl, hsame, -⟩ | ⟨-, hD⟩ | ⟨j, y, e, -, -, -, -, rfl⟩
      · exact ⟨B, hd.source, hsame ▸ hφ⟩
      · exact ⟨D', hD, hφ⟩
      · cases hφ
    obtain ⟨D, hD, hφ⟩ := phiBlock
    rcases hd.cases hA with ⟨rfl, hsame, hbody, hterm, hsuccessors⟩ | ⟨-, hA'⟩ | ⟨j, y, e, hy, -, -, he, rfl⟩
    · rw [hsuccessors] at hi
      obtain ⟨e, he, hdest⟩ := Option.map_eq_some_iff.1 hi
      rcases hdetour : detour i with _ | y
      · rw [hdetour] at hdest
        obtain rfl : e = d := hdest
        rw [defines_congr hsame hbody, hterm]
        exact hv.operands a B names hd.source (hold (lt_length_of_getElem? hd.source)) i e D he hD φ hφ v hmem x hx
      · rw [hdetour] at hdest
        obtain rfl : y.block = d := hdest
        have := (hd.inserted i y hdetour).1
        have := lt_length_of_getElem? hD
        omega
    · exact hv.operands a A names hA' (hold (lt_length_of_getElem? hA')) i d D hi hD φ hφ v hmem x hx
    · have hi' : e = d := by
        rcases i with _ | i
        · exact Option.some.inj hi
        · cases hi
      subst hi'
      rw [hphis j y e D hy he hD] at hφ
      cases hφ

/-- **A function with detours is valid if and only if they lead to blocks without phi nodes, and not to blocks for
exceptions.** -/
theorem Detoured.valid_iff (hv : Valid L f) (hd : Detoured jump f f' b B detour) (ht : Transparent L jump detour) :
    Valid L f' ↔ Behind f B detour fun D => D.phis = [] ∧ D.isPad L = false := by
  constructor
  · intro hv' i x d D hx hi hD
    obtain ⟨hge, e, he, hP⟩ := hd.inserted i x hx
    rw [hi] at he
    obtain rfl := Option.some.inj he
    obtain ⟨D', hD', hsame, hbody⟩ := hd.block hD
    constructor
    · by_contra hphis
      obtain ⟨φ, hφ⟩ := List.exists_mem_of_ne_nil _ hphis
      -- the new block is a predecessor that the phi nodes do not know
      have hold := hv.phis d D hD φ hφ x.block
      have hnew := hv'.phis d D' hD' φ (hsame ▸ hφ) x.block
      rw [hold, edges, edges, hP, List.getElem?_eq_none hge] at hnew
      simp at hnew
    · rw [← isPad_congr hbody, ← hv'.pads x.block _ hP 0 d D' rfl hD']
      exact ht.unwinds 0
  · intro h
    exact hd.valid hv ht (fun i x d D hx hi hD => (h i x d D hx hi hD).1) fun i x d D hx hi hD => (h i x d D hx hi hD).2

end Valid

/-! ## One detour after the other -/

section Insert

variable {jump : τ} {f f' : Graph ι τ ν} {b : ℕ} {B : Block ι τ ν} {detour : ℕ → Option (Detour ι)}

/-- Without detours. -/
theorem detoured_self (hB : f[b]? = some B) : Detoured jump f f b B fun _ => none where
  source := hB
  redirected := ⟨B.successors, hB, fun i => by cases B.successors[i]? <;> rfl⟩
  kept := fun _ _ _ => rfl
  inserted := fun i x h => by cases h
  only := fun p P hge hP => absurd (lt_length_of_getElem? hP) (by omega)
  injective := fun i j x y h => by cases h

/-- A new block between block `b` and its successor `i`, which is `d`. -/
def divert (f : Graph ι τ ν) (b i d : ℕ) (body : List ι) (jump : τ) : Graph ι τ ν :=
  (f ++ [(⟨[], body, jump, [d]⟩ : Block ι τ ν)]).modify b fun A => { A with successors := A.successors.set i f.length }

theorem length_divert {f : Graph ι τ ν} {b i d : ℕ} {body : List ι} {jump : τ} :
    (divert f b i d body jump).length = f.length + 1 := by
  rw [divert, List.length_modify, List.length_append, List.length_singleton]

theorem getElem?_divert {f : Graph ι τ ν} {b i d a : ℕ} {body : List ι} {jump : τ} (ha : a ≠ b) :
    (divert f b i d body jump)[a]? = if a = f.length then some ⟨[], body, jump, [d]⟩ else f[a]? := by
  have hmodify : (divert f b i d body jump)[a]? = (f ++ [(⟨[], body, jump, [d]⟩ : Block ι τ ν)])[a]? := by
    rw [divert, List.getElem?_modify]
    simp [Ne.symm ha]
  rw [hmodify]
  rcases Nat.lt_trichotomy a f.length with hlt | rfl | hgt
  · rw [if_neg (by omega), List.getElem?_append_left hlt]
  · rw [if_pos rfl, List.getElem?_append_right (Nat.le_refl _), Nat.sub_self]
    rfl
  · have hend : (f ++ [(⟨[], body, jump, [d]⟩ : Block ι τ ν)]).length ≤ a := by
      rw [List.length_append, List.length_singleton]
      omega
    rw [if_neg (by omega), List.getElem?_eq_none hend, List.getElem?_eq_none (by omega)]

theorem getElem?_divert_self {f : Graph ι τ ν} {b i d : ℕ} {A : Block ι τ ν} {body : List ι} {jump : τ}
    (hA : f[b]? = some A) :
    (divert f b i d body jump)[b]? = some { A with successors := A.successors.set i f.length } := by
  rw [divert, List.getElem?_modify, List.getElem?_append_left (lt_length_of_getElem? hA), hA]
  simp

/-- One more detour. -/
theorem Detoured.divert (hd : Detoured jump f f' b B detour) (hlength : f.length ≤ f'.length) {i d : ℕ}
    (hi : B.successors[i]? = some d) (hnone : detour i = none) (body : List ι) :
    Detoured jump f (divert f' b i d body jump) b B
      fun j => if j = i then some ⟨f'.length, body⟩ else detour j := by
  have hb := lt_length_of_getElem? hd.source
  have lt {j : ℕ} {x : Detour ι} (hx : detour j = some x) : x.block < f'.length := by
    obtain ⟨-, e, -, hP⟩ := hd.inserted j x hx
    exact lt_length_of_getElem? hP
  refine ⟨hd.source, ?_, ?_, ?_, ?_, ?_⟩
  · obtain ⟨successors, hB, hsuccessors⟩ := hd.redirected
    refine ⟨successors.set i f'.length, getElem?_divert_self hB, fun j => ?_⟩
    · rw [List.getElem?_set]
      split
      · rename_i hij
        subst hij
        have hsome : i < successors.length := by
          have := hsuccessors i
          rw [hi] at this
          exact (List.getElem?_eq_some_iff.1 this).1
        rw [if_pos hsome, hi, if_pos rfl]
        rfl
      · rename_i hij
        rw [hsuccessors, if_neg (Ne.symm hij)]
  · intro a ha hab
    rw [getElem?_divert hab, if_neg (by omega), hd.kept a ha hab]
  · intro j x hx
    split at hx
    · rename_i hji
      obtain rfl := Option.some.inj hx
      refine ⟨hlength, d, hji ▸ hi, ?_⟩
      rw [getElem?_divert (by dsimp only; omega), if_pos rfl]
    · obtain ⟨hge, e, he, hP⟩ := hd.inserted j x hx
      have := lt hx
      exact ⟨hge, e, he, by rw [getElem?_divert (by omega), if_neg (by omega), hP]⟩
  · intro p P hge hP
    rw [getElem?_divert (by omega)] at hP
    split at hP
    · rename_i hp
      exact ⟨i, ⟨f'.length, body⟩, if_pos rfl, hp.symm⟩
    · obtain ⟨j, x, hx, hblock⟩ := hd.only p P hge hP
      have hji : j ≠ i := by
        rintro rfl
        rw [hnone] at hx
        cases hx
      exact ⟨j, x, (if_neg hji).trans hx, hblock⟩
  · intro j k x y hx hy hblock
    split at hx <;> split at hy
    · omega
    · have hblock' : f'.length = y.block := by rw [← hblock, ← Option.some.inj hx]
      have := lt hy
      omega
    · have hblock' : x.block = f'.length := by rw [hblock, ← Option.some.inj hy]
      have := lt hx
      omega
    · exact hd.injective j k x y hx hy hblock

end Insert

/-! ## What a function with detours does -/

/-- Detours say what is told of their edges, and change nothing. -/
structure Quiet (m : Machine ι τ ν σ ε) (jump : τ) (detour : ℕ → Option (Detour ι)) (told : ℕ → List ε) : Prop where
  body : ∀ i x, detour i = some x → ∀ s, runBody m x.body s = (told i, some s)
  none : ∀ i, detour i = none → told i = []
  copy : ∀ s, m.copy [] s = some s
  jump : ∀ s, m.select jump s = .take 0

/-- What is told of an edge of block `b`, after it. -/
def tell (b : ℕ) (told : ℕ → List ε) : Event ε → List (Event ε)
  | .edge a i => .edge a i :: if a = b then (told i).map .output else []
  | .output e => [.output e]

/-- What is said but for the edges of the blocks from `n` on. -/
def visible (n : ℕ) (said : List (Event ε)) : List (Event ε) :=
  said.filter fun
    | .edge a _ => a < n
    | .output _ => true

/-- Two runs that have come to the same point. -/
inductive Result.Same : Result σ → Result σ → Prop
  | running {c c' : Config σ} (block : c'.block = c.block) (state : c'.state = c.state) : Same (running c) (running c')
  | returned (s : σ) : Same (returned s) (returned s)
  | wrong : Same wrong wrong

/-- `f'` does what `f` does, and tells what is told of an edge of block `b` once each time it is taken, and nothing
else. -/
def Preserves (m : Machine ι τ ν σ ε) (f f' : Graph ι τ ν) (b : ℕ) (told : ℕ → List ε) : Prop :=
  ∀ s, (∀ n, ∃ k, visible f.length (run m f' k (start s)).1 = (run m f n (start s)).1.flatMap (tell b told) ∧
      (run m f n (start s)).2.Same (run m f' k (start s)).2) ∧
    ∀ k, ∃ n, visible f.length (run m f' k (start s)).1 <+: (run m f n (start s)).1.flatMap (tell b told)

/-- From here, block `b` does not go by its address to a block that an edge with a detour leads to first. -/
def Direct (m : Machine ι τ ν σ ε) (b : ℕ) (B : Block ι τ ν) (detour : ℕ → Option (Detour ι)) (c : Config σ) : Prop :=
  c.block = b → ∀ s d i, (enter m B c.origin c.state).2 = some s → m.select B.terminator s = .goTo d →
    B.successors.findIdx? (· = d) = some i → detour i = none

section Runs

variable {L : Language ι τ ν} {jump : τ} {f f' : Graph ι τ ν} {b : ℕ} {B : Block ι τ ν}
  {detour : ℕ → Option (Detour ι)} {m : Machine ι τ ν σ ε} {told : ℕ → List ε}

/-- A run with detours, at a block of the function: phi nodes do not see the detour. -/
structure Matches (f : Graph ι τ ν) (c c' : Config σ) : Prop where
  block : c'.block = c.block
  state : c'.state = c.state
  inside : c.block < f.length
  origin : c'.origin = c.origin ∨ ∀ B : Block ι τ ν, f[c.block]? = some B → B.phis = []

/-- Where a run with detours is. -/
inductive Follows (f : Graph ι τ ν) : Result σ → Result σ → Prop
  | running {c c' : Config σ} (h : Matches f c c') : Follows f (.running c) (.running c')
  | returned (s : σ) : Follows f (.returned s) (.returned s)
  | wrong : Follows f .wrong .wrong

theorem Follows.same {r r' : Result σ} (h : Follows f r r') : r.Same r' := by
  cases h with
  | running h => exact .running h.block h.state
  | returned s => exact .returned s
  | wrong => exact .wrong

theorem visible_append {n : ℕ} {said said' : List (Event ε)} : visible n (said ++ said') = visible n said ++ visible n said' :=
  List.filter_append ..

theorem visible_output {n : ℕ} {said : List ε} : visible n (said.map Event.output) = said.map Event.output := by
  rw [visible, List.filter_eq_self]
  intro e he
  obtain ⟨x, -, rfl⟩ := List.mem_map.1 he
  rfl

theorem tell_output {said : List ε} : (said.map Event.output).flatMap (tell b told) = said.map Event.output := by
  induction said with
  | nil => rfl
  | cons e said ih =>
    rw [List.map_cons, List.flatMap_cons, ih]
    rfl

theorem enter_congr {A A' : Block ι τ ν} {origin origin' : Option ℕ} (hphis : A'.phis = A.phis) (hbody : A'.body = A.body)
    (h : origin' = origin ∨ A.phis = []) (s : σ) : enter m A' origin' s = enter m A origin s := by
  rw [enter, enter, hphis, hbody]
  rcases h with rfl | h
  · rfl
  · rw [h]
    rfl

theorem step_of_stuck {g : Graph ι τ ν} {c : Config σ} {A : Block ι τ ν} {said : List ε} (hA : g[c.block]? = some A)
    (h : enter m A c.origin c.state = (said, none)) : step m g c = (said.map .output, .wrong) := by
  rw [step, hA]
  simp only [h]

theorem step_of_enter {g : Graph ι τ ν} {c : Config σ} {A : Block ι τ ν} {said : List ε} {s : σ}
    (hA : g[c.block]? = some A) (h : enter m A c.origin c.state = (said, some s)) :
    step m g c = (said.map .output ++ (branch m A c.block s).1, (branch m A c.block s).2) := by
  rw [step, hA]
  simp only [h]

theorem branch_of_leave {A : Block ι τ ν} {s : σ} (h : m.select A.terminator s = .leave) (a : ℕ) :
    branch m A a s = ([], .returned s) := by
  unfold branch
  rw [h]

theorem branch_of_edge {A : Block ι τ ν} {s : σ} {i d : ℕ} (h : (m.select A.terminator s).edge A.successors = some i)
    (hd : A.successors[i]? = some d) (a : ℕ) : branch m A a s = ([.edge a i], .running ⟨d, some a, s⟩) := by
  unfold branch
  rcases hselect : m.select A.terminator s with _ | j | e
  · rw [hselect] at h
    cases h
  all_goals
    rw [hselect] at h
    simp only [h, hd]

theorem branch_of_none {A : Block ι τ ν} {s : σ} (hleave : m.select A.terminator s ≠ .leave)
    (h : ∀ i, (m.select A.terminator s).edge A.successors = some i → A.successors[i]? = none) (a : ℕ) :
    branch m A a s = ([], .wrong) := by
  unfold branch
  rcases hselect : m.select A.terminator s with _ | j | e
  · exact absurd hselect hleave
  all_goals
    rw [hselect] at h
    dsimp only
    split
    · rfl
    · rename_i i hi
      rw [h i hi]

/-- A branch leaves, takes an edge, or goes wrong. -/
theorem branch_cases (A : Block ι τ ν) (s : σ) : m.select A.terminator s = .leave ∨
    (∃ i d, (m.select A.terminator s).edge A.successors = some i ∧ A.successors[i]? = some d) ∨
    (m.select A.terminator s ≠ .leave ∧ ∀ i, (m.select A.terminator s).edge A.successors = some i → A.successors[i]? = none) := by
  by_cases hleave : m.select A.terminator s = .leave
  · exact Or.inl hleave
  · by_cases hedge : ∃ i d, (m.select A.terminator s).edge A.successors = some i ∧ A.successors[i]? = some d
    · exact Or.inr (Or.inl hedge)
    · refine Or.inr (Or.inr ⟨hleave, fun i hi => ?_⟩)
      rcases hd : A.successors[i]? with _ | d
      · rfl
      · exact absurd ⟨i, d, hi, hd⟩ hedge

theorem visible_edge {n a i : ℕ} (h : a < n) : visible n ([.edge a i] : List (Event ε)) = [.edge a i] := by
  simp [visible, h]

theorem visible_edge_of_le {n a i : ℕ} (h : n ≤ a) : visible n ([.edge a i] : List (Event ε)) = [] := by
  simp [visible, h]

/-- The choice of an edge stays, unless it goes by the address of a block to an edge with a detour. -/
theorem Detoured.findIdx?_eq (hd : Detoured jump f f' b B detour) {successors : List ℕ}
    (hsuccessors : ∀ i, successors[i]? = (B.successors[i]?).map fun d => (detour i).elim d Detour.block) {d : ℕ}
    (hlt : d < f.length) (hfree : ∀ i, B.successors.findIdx? (· = d) = some i → detour i = none) :
    successors.findIdx? (· = d) = B.successors.findIdx? (· = d) := by
  have back {j : ℕ} (h : successors[j]? = some d) : B.successors[j]? = some d := by
    rw [hsuccessors] at h
    obtain ⟨e, he, hdest⟩ := Option.map_eq_some_iff.1 h
    rcases hdetour : detour j with _ | x
    · rw [hdetour] at hdest
      exact he.trans (congrArg some hdest)
    · rw [hdetour] at hdest
      have : x.block = d := hdest
      have := (hd.inserted j x hdetour).1
      omega
  rcases hi : B.successors.findIdx? (· = d) with _ | i
  · rw [List.findIdx?_eq_none_iff] at hi ⊢
    intro e he
    rw [decide_eq_false_iff_not]
    rintro rfl
    obtain ⟨j, hj⟩ := List.mem_iff_getElem?.1 he
    exact of_decide_eq_false (hi e (List.mem_of_getElem? (back hj))) rfl
  · have hnone := hfree i hi
    obtain ⟨hlength, hat, hbefore⟩ := List.findIdx?_eq_some_iff_getElem.1 hi
    have hget : B.successors[i]? = some d := by
      rw [List.getElem?_eq_getElem hlength, of_decide_eq_true hat]
    have hget' : successors[i]? = some d := by
      rw [hsuccessors, hget, hnone]
      rfl
    obtain ⟨hlength', hat'⟩ := List.getElem?_eq_some_iff.1 hget'
    refine List.findIdx?_eq_some_iff_getElem.2 ⟨hlength', decide_eq_true hat', fun j hj => ?_⟩
    intro hsame
    have hj' : B.successors[j]? = some d := by
      apply back
      rw [List.getElem?_eq_getElem (by omega), of_decide_eq_true hsame]
    obtain ⟨hlen, hd'⟩ := List.getElem?_eq_some_iff.1 hj'
    exact hbefore j hj (decide_eq_true hd')

/-- The first step of a detour. -/
theorem Detoured.step_new (hd : Detoured jump f f' b B detour) (hq : Quiet m jump detour told) {i d : ℕ} {x : Detour ι}
    (hx : detour i = some x) (hi : B.successors[i]? = some d) (origin : Option ℕ) (s : σ) :
    step m f' ⟨x.block, origin, s⟩ = ((told i).map .output ++ [.edge x.block 0], .running ⟨d, some x.block, s⟩) := by
  obtain ⟨-, e, he, hP⟩ := hd.inserted i x hx
  rw [hi] at he
  obtain rfl := Option.some.inj he
  have henter : enter m (⟨[], x.body, jump, [d]⟩ : Block ι τ ν) origin s = (told i, some s) := by
    have hcopies : ((copies [] origin).bind fun values => m.copy values s) = some s := hq.copy s
    rw [enter, hcopies]
    exact hq.body i x hx s
  rw [step_of_enter hP henter, branch]
  simp only [hq.jump]
  rfl

/-- The edge that a choice takes stays, unless it goes by an address to one with a detour. -/
theorem Detoured.edge_eq (hd : Detoured jump f f' b B detour) {successors : List ℕ}
    (hsuccessors : ∀ i, successors[i]? = (B.successors[i]?).map fun d => (detour i).elim d Detour.block)
    (haddress : ∀ t s d, m.select t s = .goTo d → d < f.length) {c : Config σ} (hdirect : Direct m b B detour c)
    (hblock : c.block = b) {s : σ} (hs : (enter m B c.origin c.state).2 = some s) :
    (m.select B.terminator s).edge successors = (m.select B.terminator s).edge B.successors := by
  rcases hselect : m.select B.terminator s with _ | i | d
  · rfl
  · rfl
  · exact hd.findIdx?_eq hsuccessors (haddress _ _ _ hselect) fun i hi => hdirect hblock s d i hs hselect hi

/-- **One block**: with detours it takes one step, or one more for the block of the detour. -/
theorem Detoured.step (hv : Valid L f) (hd : Detoured jump f f' b B detour)
    (hphis : Behind f B detour fun D => D.phis = []) (hq : Quiet m jump detour told)
    (haddress : ∀ t s d, m.select t s = .goTo d → d < f.length) {c c' : Config σ} (hc : Matches f c c')
    (hdirect : Direct m b B detour c) :
    ∃ k, visible f.length (run m f' (k + 1) c').1 = (FlowGraph.step m f c).1.flatMap (tell b told) ∧
      Follows f (FlowGraph.step m f c).2 (run m f' (k + 1) c').2 := by
  obtain ⟨A, hA⟩ : ∃ A, f[c.block]? = some A := ⟨_, List.getElem?_eq_getElem hc.inside⟩
  obtain ⟨A', hA', hphis', hbody⟩ := hd.block hA
  rw [← hc.block] at hA'
  have henter : enter m A' c'.origin c'.state = enter m A c.origin c.state := by
    rw [hc.state]
    exact enter_congr hphis' hbody (hc.origin.imp_right fun h => h A hA) _
  rcases hent : enter m A c.origin c.state with ⟨said, _ | s⟩
  · -- the block does not come to its end
    rw [hent] at henter
    refine ⟨0, ?_⟩
    rw [run_succ_of_stopped (step_of_stuck hA' henter) (fun _ h => by cases h), step_of_stuck hA hent]
    exact ⟨visible_output.trans tell_output.symm, .wrong⟩
  rw [hent] at henter
  have hstep := step_of_enter hA hent
  have hstep' := step_of_enter hA' henter
  rw [hc.block] at hstep'
  -- the same branch, where it leaves, goes wrong, or takes an edge without a detour
  have plain {said₁ : List (Event ε)} {r r' : Result σ} (h : branch m A c.block s = (said₁, r))
      (h' : branch m A' c.block s = (said₁, r')) (hfollows : Follows f r r')
      (hsaid : visible f.length said₁ = said₁.flatMap (tell b told)) :
      ∃ k, visible f.length (run m f' (k + 1) c').1 = (FlowGraph.step m f c).1.flatMap (tell b told) ∧
        Follows f (FlowGraph.step m f c).2 (run m f' (k + 1) c').2 := by
    rw [h] at hstep
    rw [h'] at hstep'
    refine ⟨0, ?_⟩
    have hrun : run m f' (0 + 1) c' = (said.map .output ++ said₁, r') := by
      have hzero : run m f' 0 c' = ([], .running c') := rfl
      rw [run_succ hzero, hstep', List.nil_append]
    rw [hrun, hstep]
    refine ⟨?_, hfollows⟩
    rw [visible_append, visible_output, List.flatMap_append, tell_output, hsaid]
  have inside {a i d : ℕ} {C : Block ι τ ν} (hC : f[a]? = some C) (hi : C.successors[i]? = some d) : d < f.length := by
    obtain ⟨-, D, hD⟩ := hv.targets a C hC d (List.mem_of_getElem? hi)
    exact lt_length_of_getElem? hD
  rcases hd.cases (hc.block ▸ hA') with ⟨hb, -, -, hterm, hsuccessors⟩ | ⟨hb, hA''⟩ | ⟨i, x, d, -, -, hge, -, -⟩
  · obtain rfl : A = B := by
      rw [hb, hd.source] at hA
      exact (Option.some.inj hA).symm
    have hedge := hd.edge_eq hsuccessors haddress hdirect hb (s := s) (by rw [hent])
    rw [← hterm] at hedge
    rcases branch_cases (m := m) A s with hleave | ⟨i, d, hi, hdest⟩ | ⟨hleave, hnone⟩
    · exact plain (branch_of_leave hleave _) (branch_of_leave (hterm ▸ hleave) _) (.returned s) rfl
    · have hbranch := branch_of_edge hi hdest c.block
      rw [hterm] at hedge
      have hi' : (m.select A'.terminator s).edge A'.successors = some i := by rw [hterm, hedge, hi]
      rcases hdetour : detour i with _ | x
      · have hdest' : A'.successors[i]? = some d := by
          rw [hsuccessors, hdest, hdetour]
          rfl
        refine plain hbranch (branch_of_edge hi' hdest' _) ?_ ?_
        · exact .running ⟨rfl, rfl, inside hA hdest, Or.inl rfl⟩
        · rw [visible_edge hc.inside, List.flatMap_singleton, tell, if_pos hb, hq.none i hdetour]
          rfl
      · have hdest' : A'.successors[i]? = some x.block := by
          rw [hsuccessors, hdest, hdetour]
          rfl
        rw [hbranch] at hstep
        rw [branch_of_edge hi' hdest'] at hstep'
        refine ⟨1, ?_⟩
        have hrun : run m f' (1 + 1) c' = ((said.map .output ++ [.edge c.block i]) ++
            ((told i).map .output ++ [.edge x.block 0]), .running ⟨d, some x.block, s⟩) := by
          rw [run_succ_of_running hstep', run_succ_of_running (hd.step_new hq hdetour hdest _ _), run, List.append_nil]
        rw [hrun, hstep]
        constructor
        · rw [visible_append, visible_append, visible_append, visible_output, visible_output, visible_edge hc.inside,
            visible_edge_of_le (hd.inserted i x hdetour).1, List.flatMap_append, tell_output, List.flatMap_singleton,
            tell, if_pos hb]
          simp
        · refine .running ⟨rfl, rfl, inside hA hdest, Or.inr fun D hD => ?_⟩
          exact hphis i x d D hdetour hdest hD
    · refine plain (branch_of_none hleave hnone _) (branch_of_none (hterm ▸ hleave) ?_ _) .wrong rfl
      intro i hi
      rw [hterm] at hi hedge
      rw [hedge] at hi
      rw [hsuccessors, hnone i hi]
      rfl
  · obtain rfl : A' = A := by
      rw [hA] at hA''
      exact (Option.some.inj hA'').symm
    rcases branch_cases (m := m) A' s with hleave | ⟨i, d, hi, hdest⟩ | ⟨hleave, hnone⟩
    · exact plain (branch_of_leave hleave _) (branch_of_leave hleave _) (.returned s) rfl
    · refine plain (branch_of_edge hi hdest _) (branch_of_edge hi hdest _) ?_ ?_
      · exact .running ⟨rfl, rfl, inside hA hdest, Or.inl rfl⟩
      · rw [visible_edge hc.inside, List.flatMap_singleton, tell, if_neg hb]
    · exact plain (branch_of_none hleave hnone _) (branch_of_none hleave hnone _) .wrong rfl
  · have := hc.inside
    omega

/-- **A run**: with detours it takes at least as many steps. -/
theorem Detoured.run (hv : Valid L f) (hd : Detoured jump f f' b B detour)
    (hphis : Behind f B detour fun D => D.phis = []) (hq : Quiet m jump detour told)
    (haddress : ∀ t s d, m.select t s = .goTo d → d < f.length) (n : ℕ) {c c' : Config σ} (hc : Matches f c c')
    (hdirect : ∀ j < n, ∀ said c₁, FlowGraph.run m f j c = (said, .running c₁) → Direct m b B detour c₁) :
    ∃ k, n ≤ k ∧ visible f.length (FlowGraph.run m f' k c').1 = (FlowGraph.run m f n c).1.flatMap (tell b told) ∧
      Follows f (FlowGraph.run m f n c).2 (FlowGraph.run m f' k c').2 := by
  induction n generalizing c c' with
  | zero => exact ⟨0, Nat.le_refl 0, rfl, .running hc⟩
  | succ n ih =>
    obtain ⟨k, hsaid, hfollows⟩ := hd.step hv hphis hq haddress hc (hdirect 0 (Nat.succ_pos n) [] c rfl)
    rcases hrun' : FlowGraph.run m f' (k + 1) c' with ⟨said', r'⟩
    rw [hrun'] at hsaid hfollows
    rcases hstep : FlowGraph.step m f c with ⟨said, r⟩
    rw [hstep] at hsaid hfollows
    cases hfollows with
    | @running c₁ c₁' h =>
      have hdirect' : ∀ j < n, ∀ said c₂, FlowGraph.run m f j c₁ = (said, .running c₂) → Direct m b B detour c₂ := by
        intro j hj said₂ c₂ hrun
        refine hdirect (j + 1) (by omega) (said ++ said₂) c₂ ?_
        rw [run_succ_of_running hstep, hrun]
      obtain ⟨k₁, hk₁, hsaid₁, hfollows₁⟩ := ih h hdirect'
      refine ⟨k + 1 + k₁, by omega, ?_⟩
      rw [run_add hrun', run_succ_of_running hstep]
      refine ⟨?_, hfollows₁⟩
      rw [visible_append, List.flatMap_append, hsaid, hsaid₁]
    | returned s =>
      refine ⟨k + 1 + n, by omega, ?_⟩
      rw [run_add_of_stopped hrun' (fun _ h => by cases h), run_succ_of_stopped hstep (fun _ h => by cases h)]
      exact ⟨hsaid, .returned s⟩
    | wrong =>
      refine ⟨k + 1 + n, by omega, ?_⟩
      rw [run_add_of_stopped hrun' (fun _ h => by cases h), run_succ_of_stopped hstep (fun _ h => by cases h)]
      exact ⟨hsaid, .wrong⟩

theorem visible_isPrefix {n : ℕ} {said said' : List (Event ε)} (h : said <+: said') : visible n said <+: visible n said' :=
  List.IsPrefix.filter _ h

theorem matches_start (hv : Valid L f) (s : σ) : Matches f (start s) (start s) := by
  obtain ⟨E, hE⟩ := hv.entry
  exact ⟨rfl, rfl, lt_length_of_getElem? hE, Or.inl rfl⟩

/-- A block that goes by address to an edge with a detour takes another edge of it, or none. -/
theorem Detoured.not_direct (hv : Valid L f) (hd : Detoured jump f f' b B detour) {c c' : Config σ}
    (hc : Matches f c c') (hnot : ¬ Direct m b B detour c) : ∃ said i d, FlowGraph.step m f c = (said ++ [.edge b i], .running d) ∧
      visible f.length (said ++ [.edge b i]) = said ++ [.edge b i] ∧ said.flatMap (tell b told) = said ∧
      ((∃ j r, j ≠ i ∧ FlowGraph.step m f' c' = (said ++ [.edge b j], r)) ∨ FlowGraph.step m f' c' = (said, .wrong)) := by
  unfold Direct at hnot
  push Not at hnot
  obtain ⟨hb, s, d, i, hs, hselect, hi, hdetour⟩ := hnot
  obtain ⟨x, hx⟩ := Option.ne_none_iff_exists'.1 hdetour
  obtain ⟨successors, hB', hsuccessors⟩ := hd.redirected
  have hB : f[c.block]? = some B := hb ▸ hd.source
  rw [← hb, ← hc.block] at hB'
  rcases hent : enter m B c.origin c.state with ⟨said, o⟩
  rw [hent] at hs
  obtain rfl : o = some s := hs
  have henter : enter m { B with successors := successors } c'.origin c'.state = (said, some s) := by
    rw [hc.state, ← hent]
    exact enter_congr rfl rfl (hc.origin.imp_right fun h => h B hB) _
  obtain ⟨hlength, hat, -⟩ := List.findIdx?_eq_some_iff_getElem.1 hi
  have hget : B.successors[i]? = some d := by
    rw [List.getElem?_eq_getElem hlength, of_decide_eq_true hat]
  have hbranch : branch m B c.block s = ([.edge b i], .running ⟨d, some c.block, s⟩) := by
    rw [branch_of_edge (i := i) (d := d) (by rw [hselect]; exact hi) hget, hb]
  refine ⟨said.map .output, i, ⟨d, some c.block, s⟩, ?_, ?_, tell_output, ?_⟩
  · rw [step_of_enter hB hent, hbranch]
  · rw [visible_append, visible_output, visible_edge (hb ▸ hc.inside)]
  · have hstep := step_of_enter hB' henter
    rw [hc.block, hb] at hstep
    rcases branch_cases (m := m) { B with successors := successors } s with hleave | ⟨j, e, hj, he⟩ | ⟨hleave, hnone⟩
    · have hleave' : m.select B.terminator s = .leave := hleave
      rw [hselect] at hleave'
      cases hleave'
    · left
      refine ⟨j, .running ⟨e, some b, s⟩, ?_, ?_⟩
      · rintro rfl
        have hedge : (m.select B.terminator s).edge successors = some j := hj
        rw [hselect] at hedge
        obtain ⟨hlength', hat', -⟩ := List.findIdx?_eq_some_iff_getElem.1 hedge
        have hd' : successors[j]? = some d := by
          rw [List.getElem?_eq_getElem hlength', of_decide_eq_true hat']
        rw [hsuccessors, hget, hx] at hd'
        have hsame : x.block = d := Option.some.inj hd'
        have hge := (hd.inserted j x hx).1
        obtain ⟨-, D, hD⟩ := hv.targets b B hd.source d (List.mem_of_getElem? hget)
        have := lt_length_of_getElem? hD
        omega
      · rw [hstep, branch_of_edge hj he]
    · right
      rw [hstep, branch_of_none hleave hnone, List.append_nil]

/-- **A function with detours does what the function does if and only if no run goes by address to an edge with a
detour.** -/
theorem Detoured.preserves_iff (hv : Valid L f) (hd : Detoured jump f f' b B detour)
    (hphis : Behind f B detour fun D => D.phis = []) (hq : Quiet m jump detour told)
    (haddress : ∀ t s d, m.select t s = .goTo d → d < f.length) : Preserves m f f' b told ↔
      ∀ s n said c, FlowGraph.run m f n (start s) = (said, .running c) → Direct m b B detour c := by
  constructor
  · intro hpreserves s n
    induction n using Nat.strongRecOn with
    | ind n ih =>
      intro said c hrun
      obtain ⟨k, -, hsaid, hfollows⟩ := hd.run hv hphis hq haddress n (matches_start hv s) ih
      rcases hrun' : FlowGraph.run m f' k (start s) with ⟨said', r'⟩
      rw [hrun', hrun] at hsaid hfollows
      obtain ⟨c', rfl, hc⟩ : ∃ c', r' = .running c' ∧ Matches f c c' := by
        cases hfollows with
        | running h => exact ⟨_, rfl, h⟩
      by_contra hnot
      obtain ⟨said₁, i, d, hstep, hvisible, htell, hother⟩ := hd.not_direct hv hc hnot
      -- the edge that the function takes is told of, and the other function does not take it there
      obtain ⟨k', hk', -⟩ := (hpreserves s).1 (n + 1)
      rw [run_succ hrun, hstep, List.flatMap_append, List.flatMap_append, htell, List.flatMap_singleton, tell] at hk'
      dsimp only at hk' hsaid
      have hvisible₁ : visible f.length said₁ = said₁ ∧ visible f.length ([.edge b i] : List (Event ε)) = [.edge b i] := by
        have hb := lt_length_of_getElem? hd.source
        rw [visible_append, visible_edge hb] at hvisible
        exact ⟨List.append_cancel_right hvisible, visible_edge hb⟩
      rcases Nat.lt_or_ge k k' with hlt | hge
      · rcases hother with ⟨j, r, hji, hstep'⟩ | hstep'
        · have hlonger := visible_isPrefix (n := f.length) (run_isPrefix (m := m) (f := f') (c := start s) hlt)
          rw [run_succ hrun', hstep', hk', visible_append, hsaid, visible_append, hvisible₁.1,
            visible_edge (lt_length_of_getElem? hd.source), List.prefix_append_right_inj, List.prefix_append_right_inj]
            at hlonger
          obtain ⟨rest, hrest⟩ := hlonger
          cases (List.cons.inj hrest).1
          exact hji rfl
        · have hstopped : FlowGraph.run m f' k' (start s) = (said' ++ said₁, .wrong) := by
            obtain ⟨j, rfl⟩ := Nat.exists_eq_add_of_le hlt
            refine run_add_of_stopped ?_ fun _ h => by cases h
            rw [run_succ hrun', hstep']
          rw [hstopped, visible_append, hsaid, hvisible₁.1] at hk'
          have := congrArg List.length hk'
          simp at this
      · have hshorter := visible_isPrefix (n := f.length) (run_isPrefix (m := m) (f := f') (c := start s) hge)
        rw [hk', hrun', hsaid] at hshorter
        have hle := hshorter.length_le
        rw [List.length_append, List.length_append, List.length_cons] at hle
        omega
  · intro hdirect s
    have hrun (n : ℕ) := hd.run hv hphis hq haddress n (matches_start hv s) fun j _ => hdirect s j
    constructor
    · intro n
      obtain ⟨k, -, hsaid, hfollows⟩ := hrun n
      exact ⟨k, hsaid, hfollows.same⟩
    · intro k
      obtain ⟨k', hle, hsaid, -⟩ := hrun k
      exact ⟨k, hsaid ▸ visible_isPrefix (run_isPrefix hle)⟩

/-- **Detours are right** if and only if they lead to blocks without phi nodes that are not made for exceptions, and no
run goes by address to an edge with a detour. -/
theorem Detoured.exact_iff (hv : Valid L f) (hd : Detoured jump f f' b B detour) (ht : Transparent L jump detour)
    (hq : Quiet m jump detour told) (haddress : ∀ t s d, m.select t s = .goTo d → d < f.length) :
    (Valid L f' ∧ Preserves m f f' b told) ↔ Behind f B detour (fun D => D.phis = [] ∧ D.isPad L = false) ∧
      ∀ s n said c, FlowGraph.run m f n (start s) = (said, .running c) → Direct m b B detour c := by
  rw [hd.valid_iff hv ht]
  refine and_congr_right fun h => ?_
  exact hd.preserves_iff hv (fun i x d D hx hi hD => (h i x d D hx hi hD).1) hq haddress

end Runs

end SemantiST.Lib.FlowGraph
