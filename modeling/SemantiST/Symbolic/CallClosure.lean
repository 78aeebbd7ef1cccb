import Mathlib.Data.List.Infix
import SemantiST.Lib.Map
import SemantiST.Lib.Reach
import SemantiST.Lib.Text

/-!
# The call closure of a target

What `build` (`compiler/symbolic/build.py`) reads off the disassembled target: the bodies of functions
and the names that they call, each found by a pattern, and the names met from the functions of the
target on.
-/

namespace SemantiST.Symbolic

open Lib

/-! ## Modules -/

/-- A line of a body: a direct call, or anything else. -/
inductive Line where
  | call (before type callee after : Text)
  | other (text : Text)

/-- A function of a module; `head` stands before its name, `signature` after the opening parenthesis. -/
structure Function where
  head : Text
  name : Text
  signature : Text
  body : List Line

/-- A function, or another line at the top of a module. -/
inductive Item where
  | function (function : Function)
  | other (line : Text)

abbrev Module := List Item

def Module.functions (m : Module) : List Function :=
  m.filterMap fun item =>
    match item with
    | .function f => some f
    | .other _ => none

/-- A module defines a function. -/
def Defines (m : Module) (f : Function) : Prop := f ∈ m.functions

/-- One function calls another one directly. -/
def Calls (m : Module) (caller callee : Text) : Prop :=
  ∃ function, Defines m function ∧ function.name = caller ∧
    ∃ before type after, Line.call before type callee after ∈ function.body

/-- A name contains that of the target. -/
def Names (target name : Text) : Prop := target <:+: name

/-- A function is reached from a function of the target through direct calls. -/
def ModuleReached (m : Module) (target callee : Text) : Prop :=
  ∃ function, Defines m function ∧ Names target function.name ∧ Relation.TransGen (Calls m) function.name callee

/-! ## Disassembly -/

section Disassembly

-- how the disassembler prints a name after `@`
variable (printed : Text → Text)

def Line.text : Line → Text
  | .call before type callee after => before ++ "call ".toList ++ type ++ '@' :: printed callee ++ after
  | .other text => text

def Item.lines : Item → List Text
  | .function f =>
    ("define ".toList ++ f.head ++ '@' :: printed f.name ++ '(' :: f.signature) ::
      f.body.map (Line.text printed) ++ [['\x7d']]
  | .other line => [line]

/-- The lines of a disassembled module. -/
def disassemble (m : Module) : List Text := m.flatMap (Item.lines printed)

end Disassembly

/-! ## Patterns -/

def isNameChar (c : Char) : Bool := c.isAlphanum || c = '_'

/-- The rest after the first occurrence of a word. -/
def afterWord (word : Text) : Text → Option Text
  | [] => none
  | c :: rest => if word.isPrefixOf (c :: rest) then some ((c :: rest).drop word.length) else afterWord word rest

/-- The name at the start of a text, before an opening parenthesis. -/
def nameBefore (s : Text) : Option Text :=
  let name := s.takeWhile fun c => isNameChar c || c = '$'
  if name ≠ [] ∧ (s.drop name.length).head? = some '(' then some name else none

/-- The last name after `@` and before an opening parenthesis. -/
def lastName : Text → Option Text
  | [] => none
  | c :: rest => (lastName rest).or (if c = '@' then nameBefore rest else none)

/-- The name that `define[^\n]*@([A-Za-z0-9_$]+)\(` reads in a line. -/
def defineName (line : Text) : Option Text := (afterWord "define".toList line).bind lastName

def closes (line : Text) : Bool := line.head? = some '\x7d'

/-- The bodies that the pattern reads: from a name to the next line but one or later that closes. -/
def findBodies : ℕ → List Text → List (Text × List Text)
  | 0, _ => []
  | _, [] => []
  | _, [_] => []
  | fuel + 1, line :: first :: more =>
    match defineName line with
    | none => findBodies fuel (first :: more)
    | some name =>
      let inside := more.takeWhile fun line => !closes line
      match more.drop inside.length with
      | closing :: after => (name, first :: inside) :: findBodies fuel (closing.tail :: after)
      | [] => findBodies fuel (first :: more)

/-- The name that `call [^@\n]*@([A-Za-z_][A-Za-z0-9_]*)` reads at the start of a text. -/
def calleeAt (s : Text) : Option Text :=
  if "call ".toList.isPrefixOf s then
    match (s.drop 5).dropWhile (· ≠ '@') with
    | _ :: name => if name.head?.any (fun c => c.isAlpha || c = '_') then some (name.takeWhile isNameChar) else none
    | [] => none
  else none

/-- The names that it reads in a line. -/
def callees : Text → List Text
  | [] => []
  | c :: rest => (calleeAt (c :: rest)).toList ++ callees rest

/-- `bodies`, by name. -/
abbrev Bodies := List (Text × List Text)

def bodiesOf (lines : List Text) : Bodies := findBodies lines.length lines

namespace Bodies

variable (bodies : Bodies)

def names : List Text := (bodies.map Prod.fst).eraseDups

/-- The names called in a body, if there is one under the name. -/
def calledFrom (name : Text) : List Text := ((lastValue bodies name).getD []).flatMap callees

/-- The names of bodies that contain that of the target. -/
def roots (target : Text) : List Text := bodies.names.filter fun name => decide (target <:+: name)

/-- A name is called in the body of another one, as the patterns read them. -/
def Calls (caller callee : Text) : Prop := callee ∈ bodies.calledFrom caller

/-- **A name is read as reached**: from a body under a name that contains that of the target. -/
def Reached (target callee : Text) : Prop :=
  ∃ name ∈ bodies.names, Names target name ∧ Relation.TransGen bodies.Calls name callee

end Bodies

/-! ## The closure -/

structure Closure where
  pending : List Text
  visited : List Text := []
  symbols : List Text := []

namespace Closure

variable (bodies : Bodies)

/-- One name is taken off the list; its callees are met. -/
def step (s : Closure) : Option Closure :=
  match s.pending with
  | [] => none
  | name :: pending =>
    if name ∈ s.visited then some { s with pending := pending }
    else
      let visited := name :: s.visited
      let called := bodies.calledFrom name
      some {
        pending := (called.filter fun callee => callee ∈ bodies.names ∧ callee ∉ visited).reverse ++ pending
        visited := visited
        symbols := called ++ s.symbols }

/-- The names on the list, and those that bodies not visited yet may put there. -/
def measure (s : Closure) : ℕ :=
  s.pending.length +
    ((bodies.names.filter fun name => name ∉ s.visited).map fun name => (bodies.calledFrom name).length + 1).sum

/-- The loop over the pending names, taken off its end. -/
def run (target : Text) : Closure :=
  let start : Closure := { pending := (bodies.roots target).reverse }
  loop (step bodies) (measure bodies start) start

end Closure

/-- `symbols`: the names called from the functions of the target on, as the patterns read them. -/
def symbolsOf (lines : List Text) (target : Text) : List Text := (Closure.run (bodiesOf lines) target).symbols

/-! ## What the loop finds -/

section Found

variable {bodies : Bodies} {target : Text} {s s' : Closure}

@[simp] theorem Bodies.mem_names {name : Text} : name ∈ bodies.names ↔ name ∈ bodies.map Prod.fst := by
  rw [Bodies.names, List.mem_eraseDups]

/-- Only what has a body calls. -/
theorem Bodies.Calls.mem_names {caller callee : Text} (h : bodies.Calls caller callee) : caller ∈ bodies.names := by
  rw [Bodies.mem_names]
  by_contra hmem
  have hnone := lastValue_eq_none_iff.2 hmem
  rw [Bodies.Calls, Bodies.calledFrom, hnone] at h
  cases h

theorem Closure.measure_step (h : Closure.step bodies s = some s') : s'.measure bodies < s.measure bodies := by
  unfold Closure.step at h
  split at h
  · cases h
  rename_i name pending hpending
  split at h
  · cases h
    simp only [Closure.measure, hpending, List.length_cons]
    omega
  rename_i hunseen
  cases h
  have hlength : (((bodies.calledFrom name).filter fun callee =>
      callee ∈ bodies.names ∧ callee ∉ name :: s.visited).reverse ++ pending).length ≤
      (bodies.calledFrom name).length + pending.length := by
    rw [List.length_append, List.length_reverse]
    have := List.length_filter_le (fun callee => decide (callee ∈ bodies.names ∧ callee ∉ name :: s.visited))
      (bodies.calledFrom name)
    omega
  have hmono (x : Text) (hx : decide (x ∉ name :: s.visited) = true) : decide (x ∉ s.visited) = true := by
    rw [decide_eq_true_eq] at hx ⊢
    exact fun hmem => hx (List.mem_cons_of_mem _ hmem)
  by_cases hmem : name ∈ bodies.names
  · have hsum := sum_filter_add_le (fun name => (bodies.calledFrom name).length + 1) hmono hmem (by simp)
      (by simpa using hunseen)
    simp only [Closure.measure, hpending, List.length_cons]
    omega
  · -- a name without a body calls nothing
    have hnone : bodies.calledFrom name = [] := by
      refine List.eq_nil_iff_forall_not_mem.2 fun callee hcallee => hmem ?_
      exact (show bodies.Calls name callee from hcallee).mem_names
    have hsum := ((bodies.names.monotone_filter_right hmono).map
      fun name => (bodies.calledFrom name).length + 1).sum_le_sum fun _ _ => Nat.zero_le _
    rw [hnone] at hlength
    simp only [Closure.measure, hpending, hnone, List.length_cons, List.length_nil] at hlength ⊢
    omega

/-- What the loop keeps: it meets what is reached only, and whatever is visited has its callees met. -/
structure Closure.Kept (bodies : Bodies) (target : Text) (s : Closure) : Prop where
  reached : ∀ name, name ∈ s.pending ∨ name ∈ s.visited → name ∈ bodies.roots target ∨ bodies.Reached target name
  symbols : ∀ name ∈ s.symbols, bodies.Reached target name
  roots : ∀ name ∈ bodies.roots target, name ∈ s.visited ∨ name ∈ s.pending
  called : ∀ caller ∈ s.visited, ∀ name, bodies.Calls caller name →
    name ∈ s.symbols ∧ (name ∈ bodies.names → name ∈ s.visited ∨ name ∈ s.pending)

theorem Bodies.mem_roots {name : Text} : name ∈ bodies.roots target ↔ name ∈ bodies.names ∧ Names target name := by
  simp [Bodies.roots, Names]

/-- A callee of what is reached is reached. -/
theorem Bodies.Calls.reached {caller callee : Text} (h : bodies.Calls caller callee)
    (hcaller : caller ∈ bodies.roots target ∨ bodies.Reached target caller) : bodies.Reached target callee := by
  rcases hcaller with hroot | ⟨root, hmem, hnames, hcalls⟩
  · obtain ⟨hmem, hnames⟩ := Bodies.mem_roots.1 hroot
    exact ⟨caller, hmem, hnames, .single h⟩
  · exact ⟨root, hmem, hnames, hcalls.tail h⟩

theorem Closure.kept_start : Closure.Kept bodies target { pending := (bodies.roots target).reverse } where
  reached name hname := by
    rcases hname with hname | hname
    · exact .inl (List.mem_reverse.1 hname)
    · cases hname
  symbols name hname := by cases hname
  roots name hname := .inr (List.mem_reverse.2 hname)
  called caller hcaller := by cases hcaller

theorem Closure.kept_step (h : s.Kept bodies target) (hstep : Closure.step bodies s = some s') :
    s'.Kept bodies target := by
  unfold Closure.step at hstep
  split at hstep
  · cases hstep
  rename_i name pending hpending
  have hname : name ∈ s.pending := by rw [hpending]; exact List.mem_cons_self
  have hrest : pending ⊆ s.pending := by rw [hpending]; exact List.subset_cons_self _ _
  split at hstep
  · rename_i hvisited
    cases hstep
    -- the name that leaves the list was visited before
    have hleft (other : Text) (hother : other ∈ s.visited ∨ other ∈ s.pending) :
        other ∈ s.visited ∨ other ∈ pending := by
      rcases hother with hother | hother
      · exact .inl hother
      rw [hpending] at hother
      rcases List.mem_cons.1 hother with rfl | hother
      · exact .inl hvisited
      · exact .inr hother
    exact {
      reached := fun other hother => h.reached other (hother.imp_left (hrest ·))
      symbols := h.symbols
      roots := fun other hother => hleft other (h.roots other hother)
      called := fun caller hcaller other hcalls =>
        (h.called caller hcaller other hcalls).imp_right fun hmet hmem => hleft other (hmet hmem) }
  · rename_i hunseen
    cases hstep
    have hcallee {callee : Text} (hcallee : bodies.Calls name callee) : bodies.Reached target callee :=
      hcallee.reached (h.reached name (.inl hname))
    have hleft (other : Text) (hother : other ∈ s.visited ∨ other ∈ s.pending) :
        other ∈ name :: s.visited ∨ other ∈ ((bodies.calledFrom name).filter fun callee =>
          callee ∈ bodies.names ∧ callee ∉ name :: s.visited).reverse ++ pending := by
      rcases hother with hother | hother
      · exact .inl (List.mem_cons_of_mem _ hother)
      rw [hpending] at hother
      rcases List.mem_cons.1 hother with rfl | hother
      · exact .inl List.mem_cons_self
      · exact .inr (List.mem_append_right _ hother)
    refine ⟨?_, ?_, fun other hother => hleft other (h.roots other hother), ?_⟩
    · rintro other (hother | hother)
      · rcases List.mem_append.1 hother with hother | hother
        · exact .inr (hcallee (List.mem_of_mem_filter (List.mem_reverse.1 hother)))
        · exact h.reached other (.inl (hrest hother))
      · rcases List.mem_cons.1 hother with rfl | hother
        · exact h.reached other (.inl hname)
        · exact h.reached other (.inr hother)
    · intro other hother
      rcases List.mem_append.1 hother with hother | hother
      · exact hcallee hother
      · exact h.symbols other hother
    · intro caller hcaller other hcalls
      rcases List.mem_cons.1 hcaller with rfl | hcaller
      · refine ⟨List.mem_append_left _ hcalls, fun hmem => ?_⟩
        by_cases hseen : other ∈ caller :: s.visited
        · exact .inl hseen
        · refine .inr (List.mem_append_left _ (List.mem_reverse.2 (List.mem_filter.2 ⟨hcalls, ?_⟩)))
          exact decide_eq_true ⟨hmem, hseen⟩
      · obtain ⟨hsymbol, hmet⟩ := h.called caller hcaller other hcalls
        exact ⟨List.mem_append_right _ hsymbol, fun hmem => hleft other (hmet hmem)⟩

/-- **The symbols are the names that are read as reached.** -/
theorem mem_symbolsOf {lines : List Text} {name : Text} :
    name ∈ symbolsOf lines target ↔ (bodiesOf lines).Reached target name := by
  have hends := loop_ends (Closure.measure (bodiesOf lines)) (fun _ _ => Closure.measure_step)
    (s := { pending := ((bodiesOf lines).roots target).reverse }) le_rfl
  have hstart : Closure.Kept (bodiesOf lines) target { pending := ((bodiesOf lines).roots target).reverse } :=
    Closure.kept_start
  have hkept := hends.invariant (fun _ _ => Closure.kept_step) hstart
  have hpending : (Closure.run (bodiesOf lines) target).pending = [] := by
    have hnone := hends.step_eq_none
    unfold Closure.step at hnone
    split at hnone
    · assumption
    · split at hnone <;> cases hnone
  refine ⟨hkept.symbols name, ?_⟩
  rintro ⟨root, hmem, hnames, hcalls⟩
  -- from what is visited, whatever is called in turn is met
  have hmet (caller : Text) (hcalls : Relation.TransGen (bodiesOf lines).Calls caller name)
      (hvisited : caller ∈ (Closure.run (bodiesOf lines) target).visited) : name ∈ symbolsOf lines target := by
    induction hcalls using Relation.TransGen.head_induction_on with
    | single hcall => exact (hkept.called _ hvisited _ hcall).1
    | @head caller callee hcall hrest ih =>
      have hcaller : callee ∈ (bodiesOf lines).names := by
        obtain ⟨next, hfirst, hreach⟩ := Relation.TransGen.head'_iff.1 hrest
        exact hfirst.mem_names
      rcases (hkept.called _ hvisited _ hcall).2 hcaller with hseen | hleft
      · exact ih hseen
      · change _ ∈ (Closure.run (bodiesOf lines) target).pending at hleft
        rw [hpending] at hleft
        cases hleft
  rcases hkept.roots root (Bodies.mem_roots.2 ⟨hmem, hnames⟩) with hvisited | hleft
  · exact hmet root hcalls hvisited
  · change _ ∈ (Closure.run (bodiesOf lines) target).pending at hleft
    rw [hpending] at hleft
    cases hleft

end Found

end SemantiST.Symbolic
