import Mathlib.Data.List.Basic
import Mathlib.Data.List.Count

/-!
# Flow graphs

Functions of basic blocks with phi nodes: what makes one valid, and what a run of one does.  Instructions, terminators
and operands are of any types; a language says what they read and define, a machine what they do.
-/

namespace SemantiST.Lib.FlowGraph

/-! ## Functions -/

/-- A value that depends on the block that control comes from. -/
structure Phi (ν : Type) where
  name : ℕ
  incoming : List (ℕ × ν)

structure Block (ι τ ν : Type) where
  phis : List (Phi ν)
  body : List ι
  terminator : τ
  successors : List ℕ

/-- The blocks of a function, by their numbers; the first one is its entry. -/
abbrev Graph (ι τ ν : Type) := List (Block ι τ ν)

/-- What instructions, terminators and operands say of names. -/
structure Language (ι τ ν : Type) where
  uses : ι → List ℕ
  defines : ι → List ℕ
  /-- A start of a block that only exceptions reach. -/
  isPad : ι → Bool
  branchUses : τ → List ℕ
  /-- What a terminator defines on an edge. -/
  branchDefines : τ → ℕ → List ℕ
  /-- An edge that an exception takes. -/
  unwinds : τ → ℕ → Bool
  valueUses : ν → List ℕ

variable {ι τ ν σ ε : Type}

/-! ## Valid functions -/

section Valid

variable (L : Language ι τ ν) (f : Graph ι τ ν)

def Block.isPad (B : Block ι τ ν) : Bool := B.body.head?.any L.isPad

/-- What the phi nodes and the instructions of a block define. -/
def Block.defines (B : Block ι τ ν) : List ℕ := B.phis.map Phi.name ++ B.body.flatMap L.defines

/-- The number of edges from one block to another. -/
def edges (a d : ℕ) : ℕ := ((f[a]?).elim [] Block.successors).count d

/-- The names that are defined when control comes to a block, along some path. -/
inductive Defined : ℕ → List ℕ → Prop
  | entry : Defined 0 []
  | edge {a i d : ℕ} {names : List ℕ} {B : Block ι τ ν} (path : Defined a names) (hB : f[a]? = some B)
    (hd : B.successors[i]? = some d) : Defined d (names ++ (B.defines L ++ L.branchDefines B.terminator i))

/-- A valid function: edges lead to blocks, never to the entry; a phi node has one value for each edge into its block;
exceptions come to the blocks that are made for them, and to no others; and what is used is defined before, on every
path. -/
structure Valid : Prop where
  entry : ∃ B : Block ι τ ν, f[0]? = some B
  targets : ∀ (a : ℕ) (B : Block ι τ ν), f[a]? = some B → ∀ d ∈ B.successors, d ≠ 0 ∧ ∃ D : Block ι τ ν, f[d]? = some D
  phis : ∀ (d : ℕ) (D : Block ι τ ν), f[d]? = some D → ∀ φ ∈ D.phis, ∀ a, (φ.incoming.map Prod.fst).count a = edges f a d
  coherent : ∀ (d : ℕ) (D : Block ι τ ν), f[d]? = some D → ∀ φ ∈ D.phis, ∀ x ∈ φ.incoming, ∀ y ∈ φ.incoming,
    x.1 = y.1 → x.2 = y.2
  pads : ∀ (a : ℕ) (B : Block ι τ ν), f[a]? = some B → ∀ (i d : ℕ) (D : Block ι τ ν), B.successors[i]? = some d →
    f[d]? = some D → L.unwinds B.terminator i = D.isPad L
  distinct : ∀ (a : ℕ) (B : Block ι τ ν), f[a]? = some B → (B.defines L).Nodup
  single : ∀ (a a' : ℕ) (B B' : Block ι τ ν), f[a]? = some B → f[a']? = some B' → ∀ x ∈ B.defines L, x ∈ B'.defines L →
    a = a'
  bodies : ∀ (a : ℕ) (B : Block ι τ ν) (names : List ℕ), f[a]? = some B → Defined L f a names →
    ∀ before o after, B.body = before ++ o :: after → ∀ x ∈ L.uses o,
      x ∈ names ++ (B.phis.map Phi.name ++ before.flatMap L.defines)
  branches : ∀ (a : ℕ) (B : Block ι τ ν) (names : List ℕ), f[a]? = some B → Defined L f a names →
    ∀ x ∈ L.branchUses B.terminator, x ∈ names ++ B.defines L
  operands : ∀ (a : ℕ) (B : Block ι τ ν) (names : List ℕ), f[a]? = some B → Defined L f a names →
    ∀ (i d : ℕ) (D : Block ι τ ν), B.successors[i]? = some d → f[d]? = some D → ∀ φ ∈ D.phis, ∀ v, (a, v) ∈ φ.incoming →
      ∀ x ∈ L.valueUses v, x ∈ names ++ (B.defines L ++ L.branchDefines B.terminator i)

end Valid

/-! ## Runs -/

/-- What a terminator does: leave the function, take an edge by its number, or go to a block by its address. -/
inductive Choice where
  | leave
  | take (index : ℕ)
  | goTo (block : ℕ)

/-- What instructions do: an instruction says something, and leads to a state unless it goes wrong or never ends. -/
structure Machine (ι τ ν σ ε : Type) where
  exec : ι → σ → List ε × Option σ
  /-- Phi nodes are set all at once. -/
  copy : List (ℕ × ν) → σ → Option σ
  select : τ → σ → Choice

inductive Event (ε : Type) where
  | edge (block index : ℕ)
  | output (what : ε)

structure Config (σ : Type) where
  block : ℕ
  /-- The block that control comes from. -/
  origin : Option ℕ
  state : σ

inductive Result (σ : Type) where
  | running (config : Config σ)
  | returned (state : σ)
  | wrong

/-- The edge that a choice takes. -/
def Choice.edge (successors : List ℕ) : Choice → Option ℕ
  | leave => none
  | take index => some index
  | goTo block => successors.findIdx? (· = block)

/-- The values of the phi nodes of a block. -/
def copies (phis : List (Phi ν)) (origin : Option ℕ) : Option (List (ℕ × ν)) :=
  phis.mapM fun φ => (φ.incoming.find? fun entry => some entry.1 = origin).map fun entry => (φ.name, entry.2)

section Runs

variable (m : Machine ι τ ν σ ε) (f : Graph ι τ ν)

def runBody : List ι → σ → List ε × Option σ
  | [], s => ([], some s)
  | o :: rest, s =>
    match m.exec o s with
    | (said, none) => (said, none)
    | (said, some s) => (said ++ (runBody rest s).1, (runBody rest s).2)

/-- A block up to its terminator. -/
def enter (B : Block ι τ ν) (origin : Option ℕ) (s : σ) : List ε × Option σ :=
  match (copies B.phis origin).bind fun values => m.copy values s with
  | none => ([], none)
  | some s => runBody m B.body s

/-- The terminator of block `a`. -/
def branch (B : Block ι τ ν) (a : ℕ) (s : σ) : List (Event ε) × Result σ :=
  match m.select B.terminator s with
  | .leave => ([], .returned s)
  | choice =>
    match choice.edge B.successors with
    | none => ([], .wrong)
    | some i =>
      match B.successors[i]? with
      | none => ([], .wrong)
      | some d => ([.edge a i], .running ⟨d, some a, s⟩)

def step (c : Config σ) : List (Event ε) × Result σ :=
  match f[c.block]? with
  | none => ([], .wrong)
  | some B =>
    match enter m B c.origin c.state with
    | (said, none) => (said.map .output, .wrong)
    | (said, some s) => (said.map .output ++ (branch m B c.block s).1, (branch m B c.block s).2)

/-- At most `n` blocks. -/
def run : ℕ → Config σ → List (Event ε) × Result σ
  | 0, c => ([], .running c)
  | n + 1, c =>
    match step m f c with
    | (said, .running c') => (said ++ (run n c').1, (run n c').2)
    | stopped => stopped

/-- A call of the function. -/
def start (s : σ) : Config σ := ⟨0, none, s⟩

variable {m f} {n k : ℕ} {c c' : Config σ} {said : List (Event ε)} {r : Result σ}

theorem run_succ_of_running (h : step m f c = (said, .running c')) :
    run m f (n + 1) c = (said ++ (run m f n c').1, (run m f n c').2) := by rw [run, h]

theorem run_succ_of_stopped (h : step m f c = (said, r)) (hr : ∀ c', r ≠ .running c') : run m f (n + 1) c = (said, r) := by
  rw [run, h]
  cases r with
  | running c' => exact absurd rfl (hr c')
  | _ => rfl

/-- A run of `n` blocks, and one of `k` more. -/
theorem run_add (h : run m f n c = (said, .running c')) :
    run m f (n + k) c = (said ++ (run m f k c').1, (run m f k c').2) := by
  induction n generalizing c said with
  | zero =>
    obtain ⟨rfl, hc⟩ := Prod.mk.inj h
    obtain rfl := Result.running.inj hc
    rw [Nat.zero_add, List.nil_append]
  | succ n ih =>
    rcases hstep : step m f c with ⟨said₁, r⟩
    cases r with
    | running c₁ =>
      rw [run_succ_of_running hstep] at h
      obtain ⟨rfl, hrest⟩ := Prod.mk.inj h
      rw [Nat.succ_add, run_succ_of_running hstep, ih (Prod.ext rfl hrest), List.append_assoc]
    | _ =>
      rw [run_succ_of_stopped hstep (fun c' h => by cases h)] at h
      cases (Prod.mk.inj h).2

/-- A run that has stopped stays so. -/
theorem run_add_of_stopped (h : run m f n c = (said, r)) (hr : ∀ c', r ≠ .running c') : run m f (n + k) c = (said, r) := by
  induction n generalizing c said with
  | zero => exact absurd (Prod.mk.inj h).2.symm (hr c)
  | succ n ih =>
    rcases hstep : step m f c with ⟨said₁, r₁⟩
    cases r₁ with
    | running c₁ =>
      rw [run_succ_of_running hstep] at h
      obtain ⟨rfl, hrest⟩ := Prod.mk.inj h
      rw [Nat.succ_add, run_succ_of_running hstep, ih (Prod.ext rfl hrest)]
    | _ =>
      rw [run_succ_of_stopped hstep (fun c' h => by cases h)] at h
      rw [Nat.succ_add, run_succ_of_stopped hstep (fun c' h => by cases h), h]

/-- What a run says, a longer run says first. -/
theorem run_isPrefix (h : n ≤ k) : (run m f n c).1 <+: (run m f k c).1 := by
  obtain ⟨j, rfl⟩ := Nat.exists_eq_add_of_le h
  rcases hrun : run m f n c with ⟨said, r⟩
  cases r with
  | running c' =>
    rw [run_add hrun]
    exact List.prefix_append _ _
  | _ => exact (congrArg Prod.fst (run_add_of_stopped hrun fun c' h => by cases h)).symm ▸ List.prefix_rfl

/-- The block of a run that one more edge leads on. -/
theorem run_succ (h : run m f n c = (said, .running c')) :
    run m f (n + 1) c = (said ++ (step m f c').1, (step m f c').2) := by
  rw [run_add h]
  rcases hstep : step m f c' with ⟨said₁, r₁⟩
  cases r₁ with
  | running c₁ =>
    rw [run_succ_of_running hstep, run, List.append_nil]
  | _ => rw [run_succ_of_stopped hstep (fun c' h => by cases h)]

end Runs

end SemantiST.Lib.FlowGraph
