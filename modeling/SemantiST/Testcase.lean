import SemantiST.Lib.Map
import SemantiST.Lib.Text

/-!
# What a testcase says

A testcase is a list of assignments.  A frame inherits the values of the frame before it, the first
one the defaults and the shared records of its fields; the last assignment to a field counts.  The
two parsers of testcase texts are compared with this.
-/

namespace SemantiST

open Lib

/-- The values of fields, by name. -/
abbrev Values := Std.ExtTreeMap Text Text compare

/-- One record of a testcase, its name resolved to a declared one. -/
inductive Assignment where
  | init
  | shared (name value : Text)
  | dt (cycle : ℕ) (ns : ℤ)
  | field (cycle : ℕ) (name value : Text)
  deriving DecidableEq

namespace Assignment

/-- The frame an assignment belongs to. -/
def cycle : Assignment → Option ℕ
  | init | shared _ _ => none
  | dt i _ | field i _ _ => some i

def toShared : Assignment → Option (Text × Text)
  | shared name value => some (name, value)
  | _ => none

def toDt : Assignment → Option (ℕ × ℤ)
  | dt i ns => some (i, ns)
  | _ => none

/-- What an assignment sets in frame `i`. -/
def toField (i : ℕ) : Assignment → Option (Text × Text)
  | field j name value => if j = i then some (name, value) else none
  | _ => none

end Assignment

/-! ## Frames -/

def sharedOf (rs : List Assignment) : Values := insertAll ∅ (rs.filterMap Assignment.toShared)

/-- The assignments to the fields of frame `i`. -/
def fieldsOf (rs : List Assignment) (i : ℕ) : List (Text × Text) := rs.filterMap (Assignment.toField i)

/-- The time step of frame `i`. -/
def dtOf (rs : List Assignment) (i : ℕ) : Option ℤ := lastValue (rs.filterMap Assignment.toDt) i

/-- The defaults, with the shared value of every field that has one. -/
def seeded (defaults shared : Values) : Values :=
  defaults.map fun name value => shared[name]?.getD value

/-- The values frame `i` starts from. -/
def inheritedAt (defaults : Values) (rs : List Assignment) : ℕ → Values
  | 0 => seeded defaults (sharedOf rs)
  | i + 1 => insertAll (inheritedAt defaults rs i) (fieldsOf rs i)

/-- The values of frame `i`. -/
def valuesAt (defaults : Values) (rs : List Assignment) (i : ℕ) : Values :=
  insertAll (inheritedAt defaults rs i) (fieldsOf rs i)

/-- Frame `i`: its number, its values and its time step. -/
def frameAt (defaults : Values) (rs : List Assignment) (i : ℕ) : ℕ × Values × Option ℤ :=
  (i, valuesAt defaults rs i, dtOf rs i)

/-- The frames the assignments name are those before `n`. -/
def FrameCount (rs : List Assignment) (n : ℕ) : Prop :=
  ∀ i, (∃ a ∈ rs, a.cycle = some i) ↔ i < n

theorem FrameCount.unique {rs : List Assignment} {n m : ℕ} (hn : FrameCount rs n)
    (hm : FrameCount rs m) : n = m := by
  have h : ∀ i, i < n ↔ i < m := fun i => (hn i).symm.trans (hm i)
  have h₁ := h n
  have h₂ := h m
  omega

variable {rs : List Assignment} {a : Assignment} {defaults shared : Values} {i n : ℕ} {k v : Text}

theorem sharedOf_concat : sharedOf (rs ++ [a]) = insertAll (sharedOf rs) a.toShared.toList := by
  rw [sharedOf, List.filterMap_append, insertAll_append]
  cases h : a.toShared <;> simp [sharedOf, h]

theorem fieldsOf_concat : fieldsOf (rs ++ [a]) i = fieldsOf rs i ++ (a.toField i).toList := by
  rw [fieldsOf, List.filterMap_append]
  cases h : a.toField i <;> simp [fieldsOf, h]

theorem dtOf_concat : dtOf (rs ++ [a]) i =
    (lastValue a.toDt.toList i).or (dtOf rs i) := by
  rw [dtOf, List.filterMap_append, lastValue_append]
  cases h : a.toDt <;> simp [dtOf, h]

/-- A frame that no assignment belongs to has no fields and no time step. -/
theorem fieldsOf_eq_nil (h : ∀ a ∈ rs, a.cycle ≠ some i) : fieldsOf rs i = [] := by
  refine List.filterMap_eq_nil_iff.2 fun a ha => ?_
  cases a with
  | field j name value =>
    have hj : j ≠ i := fun hj => h _ ha (congrArg some hj)
    simp [Assignment.toField, hj]
  | init | shared | dt => rfl

theorem dtOf_eq_none (h : ∀ a ∈ rs, a.cycle ≠ some i) : dtOf rs i = none := by
  refine lastValue_eq_none_iff.2 fun hmem => ?_
  obtain ⟨p, hp, rfl⟩ := List.mem_map.1 hmem
  obtain ⟨a, ha, hap⟩ := List.mem_filterMap.1 hp
  cases a with
  | dt j ns =>
    obtain rfl := Option.some.inj hap
    exact h _ ha rfl
  | init | shared | field => cases hap

theorem FrameCount.fieldsOf_eq_nil (h : FrameCount rs n) (hi : n ≤ i) : fieldsOf rs i = [] :=
  SemantiST.fieldsOf_eq_nil fun a ha hc => absurd ((h i).1 ⟨a, ha, hc⟩) (by omega)

theorem FrameCount.dtOf_eq_none (h : FrameCount rs n) (hi : n ≤ i) : dtOf rs i = none :=
  SemantiST.dtOf_eq_none fun a ha hc => absurd ((h i).1 ⟨a, ha, hc⟩) (by omega)

/-- The number of frames once an assignment is added, to the last frame or to the next one. -/
theorem FrameCount.concat (h : FrameCount rs n) (ha : ∀ i, a.cycle = some i → i ≤ n) :
    FrameCount (rs ++ [a]) (a.cycle.elim n fun i => max n (i + 1)) := by
  intro j
  have hrs := h j
  cases hc : a.cycle with
  | none => simp [or_and_right, exists_or, hrs, hc]
  | some i =>
    have hi := ha i hc
    simp only [List.mem_append, List.mem_singleton, or_and_right, exists_or, hrs, exists_eq_left, hc,
      Option.some.injEq, Option.elim]
    omega

theorem getElem?_seeded : (seeded defaults shared)[k]? =
    (defaults[k]?).map fun value => shared[k]?.getD value := by
  rw [seeded, Std.ExtTreeMap.getElem?_map]

/-- Every frame has a value for every default. -/
theorem isSome_inheritedAt (i : ℕ) (h : (defaults[k]?).isSome) :
    ((inheritedAt defaults rs i)[k]?).isSome := by
  induction i with
  | zero =>
    rw [inheritedAt, getElem?_seeded]
    simpa using h
  | succ i ih =>
    rw [inheritedAt, getElem?_insertAll]
    cases lastValue (fieldsOf rs i) k with
    | none => exact ih
    | some v => rfl

theorem isSome_valuesAt (i : ℕ) (h : (defaults[k]?).isSome) :
    ((valuesAt defaults rs i)[k]?).isSome := isSome_inheritedAt (i + 1) h

end SemantiST
