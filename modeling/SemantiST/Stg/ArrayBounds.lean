import SemantiST.Lib.Fold
import SemantiST.Stg.Hazards
import Mathlib.Algebra.BigOperators.Group.List.Basic
import Mathlib.Algebra.BigOperators.Ring.List
import Mathlib.Algebra.Order.BigOperators.Group.List
import Mathlib.Data.BitVec
import Mathlib.Data.List.Pairwise

/-!
# Array bounds of a flattened index

`flattened_array_indices` takes the index into a flat array apart again.  Which indices it finds, and when the
condition that is built from them says exactly that an index of the source is out of bounds.
-/

namespace SemantiST.Stg.Ir

open Lib

/-! ## Linear expressions -/

/-- Sums and multiples of values that other instructions have computed. -/
inductive Linear {w : ℕ} : IntValue w → Prop
  | const (bits : BitVec w) : Linear (.const bits)
  | read (name : ℕ) : Linear (.read name)
  | add {left right : IntValue w} : Linear left → Linear right → Linear (.add left right)
  | mulLeft (bits : BitVec w) {value : IntValue w} : Linear value → Linear (.mul (.const bits) value)
  | mulRight {value : IntValue w} (bits : BitVec w) : Linear value → Linear (.mul value (.const bits))

section Monomials

variable {w : ℕ}

/-- The loaded values of a linear expression, with what each is multiplied by. -/
def monomials : {w : ℕ} → IntValue w → List (ℕ × ℕ)
  | _, .read name => [(1, name)]
  | _, .add left right => monomials left ++ monomials right
  | _, .mul (.const bits) value => (monomials value).map (Prod.map (bits.toNat * ·) id)
  | _, .mul value (.const bits) => (monomials value).map (Prod.map (bits.toNat * ·) id)
  | _, _ => []

/-- The names of the loaded values. -/
def loads (value : IntValue w) : List ℕ := (monomials value).map Prod.snd

/-- What a sum of monomials comes to. -/
def total (env : Environment) (w : ℕ) (monos : List (ℕ × ℕ)) : BitVec w :=
  (monos.map fun mono => BitVec.ofNat w mono.1 * env.ints w mono.2).sum

/-- The monomials as terms of a sum with a coefficient. -/
def scaled (w coefficient : ℕ) (monos : List (ℕ × ℕ)) : List (ℕ × IntValue w) :=
  monos.map (Prod.map (coefficient * ·) .read)

variable {env : Environment} {a b : List (ℕ × ℕ)} {c m : ℕ}

@[simp]
theorem total_nil : total env w [] = 0 := rfl

@[simp]
theorem total_append : total env w (a ++ b) = total env w a + total env w b := by
  simp [total]

@[simp]
theorem total_map (m : ℕ) : total env w (a.map (Prod.map (m * ·) id)) = BitVec.ofNat w m * total env w a := by
  induction a with
  | nil => simp [total]
  | cons mono rest ih =>
    simp only [total, List.map_cons, List.sum_cons, Prod.map_fst, Prod.map_snd, id] at ih ⊢
    rw [ih, BitVec.ofNat_mul, mul_add, mul_assoc]

theorem total_perm (h : a.Perm b) : total env w a = total env w b := (h.map _).sum_eq

@[simp]
theorem scaled_append : scaled w c (a ++ b) = scaled w c a ++ scaled w c b := List.map_append

@[simp]
theorem scaled_map : scaled w c (a.map (Prod.map (m * ·) id)) = scaled w (c * m) a := by
  simp only [scaled, List.map_map]
  apply List.map_congr_left
  rintro ⟨n, name⟩ _
  simp [mul_assoc]

@[simp]
theorem monomials_const (bits : BitVec w) : monomials (.const bits) = [] := rfl

@[simp]
theorem monomials_mulLeft (bits : BitVec w) (value : IntValue w) :
    monomials (.mul (.const bits) value) = (monomials value).map (Prod.map (bits.toNat * ·) id) := rfl

/-- A product with a constant on the right is one with the constant on the left. -/
@[simp]
theorem monomials_mulRight (value : IntValue w) (bits : BitVec w) :
    monomials (.mul value (.const bits)) = (monomials value).map (Prod.map (bits.toNat * ·) id) := by
  cases value with
  | const other => simp
  | read name => rfl
  | add left right => rfl
  | _ =>
    rw [monomials]
    intro bits h
    cases h

end Monomials

/-! ## The terms of a sum -/

section Terms

variable {w : ℕ} {env : Environment} {c : ℕ} {ts : List (ℕ × IntValue w)} {value : IntValue w}

theorem zeroExtendedConstant_const (hw : w ≤ 64) (bits : BitVec w) :
    zeroExtendedConstant (.const bits) = some bits.toNat := if_pos hw

theorem const_or_zeroExtendedConstant (value : IntValue w) :
    (∃ bits, value = .const bits) ∨ zeroExtendedConstant value = none := by
  cases value with
  | const bits => exact Or.inl ⟨bits, rfl⟩
  | _ => exact Or.inr rfl

theorem terms_const (hw : w ≤ 64) (bits : BitVec w) :
    terms (.const bits) c = if bits.toNat = 0 then some [] else none := by
  unfold terms
  rw [zeroExtendedConstant_const hw]

theorem terms_add (left right : IntValue w) :
    terms (.add left right) c = (do return (← terms left c) ++ (← terms right c)) := rfl

theorem terms_mulLeft (hw : w ≤ 64) (bits : BitVec w) (value : IntValue w) :
    terms (.mul (.const bits) value) c = (checkedMul c bits.toNat).bind (terms value) := by
  rw [terms]
  simp only [zeroExtendedConstant_const hw]
  rfl

theorem terms_mulRight (hw : w ≤ 64) (h : zeroExtendedConstant value = none) (bits : BitVec w) :
    terms (.mul value (.const bits)) c = (checkedMul c bits.toNat).bind (terms value) := by
  rw [terms]
  simp only [zeroExtendedConstant_const hw, h]
  rfl

theorem checkedMul_eq_some {a b n : ℕ} (h : checkedMul a b = some n) : n = a * b := by
  rw [checkedMul] at h
  split at h
  · exact (Option.some.inj h).symm
  · cases h

/-- **The terms of a linear expression are its monomials**, and it has no constant part. -/
theorem terms_spec (hw : w ≤ 64) (linear : Linear value) (h : terms value c = some ts) :
    ts = scaled w c (monomials value) ∧ ∀ env, value.eval env = total env w (monomials value) := by
  induction linear generalizing c ts with
  | const bits =>
    rw [terms_const hw] at h
    split at h
    · rename_i hzero
      refine ⟨by simpa [scaled] using h.symm, fun env => ?_⟩
      simpa [IntValue.eval, ← BitVec.toNat_inj] using hzero
    · cases h
  | read name =>
    have hterms : terms (.read name : IntValue w) c = some [(c, .read name)] := rfl
    rw [hterms] at h
    refine ⟨by simpa [scaled, monomials] using h.symm, fun env => ?_⟩
    simp [IntValue.eval, total, monomials]
  | @add left right _ _ ihl ihr =>
    rw [terms_add] at h
    obtain ⟨lefts, hleft, h⟩ := Option.bind_eq_some_iff.1 h
    obtain ⟨rights, hright, h⟩ := Option.bind_eq_some_iff.1 h
    obtain ⟨rfl, evalLeft⟩ := ihl hleft
    obtain ⟨rfl, evalRight⟩ := ihr hright
    refine ⟨by simpa [monomials] using h.symm, fun env => ?_⟩
    simp [IntValue.eval, monomials, evalLeft, evalRight]
  | @mulLeft bits value _ ih =>
    rw [terms_mulLeft hw] at h
    obtain ⟨n, hn, h⟩ := Option.bind_eq_some_iff.1 h
    obtain ⟨rfl, heval⟩ := ih h
    refine ⟨by simp [checkedMul_eq_some hn], fun env => ?_⟩
    simp [IntValue.eval, heval]
  | @mulRight value bits _ ih =>
    rcases const_or_zeroExtendedConstant value with ⟨other, rfl⟩ | hnone
    · -- the constant on the left is the multiplier, and the one on the right must be zero
      rw [terms_mulLeft hw] at h
      obtain ⟨n, -, h⟩ := Option.bind_eq_some_iff.1 h
      rw [terms_const hw] at h
      split at h
      · rename_i hzero
        refine ⟨by simpa [scaled] using h.symm, fun env => ?_⟩
        have hbits : bits = 0 := by simpa [← BitVec.toNat_inj] using hzero
        simp [IntValue.eval, hbits]
      · cases h
    · rw [terms_mulRight hw hnone] at h
      obtain ⟨n, hn, h⟩ := Option.bind_eq_some_iff.1 h
      obtain ⟨rfl, heval⟩ := ih h
      refine ⟨by simp [checkedMul_eq_some hn], fun env => ?_⟩
      rw [IntValue.eval, heval, monomials_mulRight, total_map, IntValue.eval, BitVec.ofNat_toNat, BitVec.setWidth_eq]
      exact mul_comm _ _

end Terms

/-! ## Row-major order -/

section RowMajor

variable {w : ℕ} {env : Environment} {c : ℕ} {ts : List (ℕ × IntValue w)} {flat : IntValue w}
  {parts : List (ℕ × IntValue w)}

/-- An index into the flat array: the sum of indices that are multiplied by strides.  A constant index may have been
multiplied already, as long as nothing overflows, and a zero may have been left out of a sum. -/
inductive RowMajor : List (ℕ × IntValue w) → IntValue w → Prop
  | zero : RowMajor [] (.const 0)
  | index (index : IntValue w) : RowMajor [(1, index)] index
  | folded (stride : ℕ) (bits : BitVec w) (exact : (BitVec.ofNat w stride * bits).toInt = stride * bits.toInt) :
    RowMajor [(stride, .const bits)] (.const (BitVec.ofNat w stride * bits))
  | add {lefts rights : List (ℕ × IntValue w)} {left right : IntValue w} :
    RowMajor lefts left → RowMajor rights right → RowMajor (lefts ++ rights) (.add left right)
  | zeroAdd {lefts rights : List (ℕ × IntValue w)} {right : IntValue w} :
    RowMajor lefts (.const 0) → RowMajor rights right → RowMajor (lefts ++ rights) right
  | addZero {lefts rights : List (ℕ × IntValue w)} {left : IntValue w} :
    RowMajor lefts left → RowMajor rights (.const 0) → RowMajor (lefts ++ rights) left
  | mulLeft {parts : List (ℕ × IntValue w)} {value : IntValue w} (bits : BitVec w) :
    RowMajor parts value → RowMajor (parts.map (Prod.map (bits.toNat * ·) id)) (.mul (.const bits) value)
  | mulRight {parts : List (ℕ × IntValue w)} {value : IntValue w} (bits : BitVec w) :
    RowMajor parts value → RowMajor (parts.map (Prod.map (bits.toNat * ·) id)) (.mul value (.const bits))

/-- The monomials of all indices, multiplied by their strides. -/
def flattened (parts : List (ℕ × IntValue w)) : List (ℕ × ℕ) :=
  parts.flatMap fun part => (monomials part.2).map (Prod.map (part.1 * ·) id)

/-- An index without a constant part. -/
def Homogeneous (index : IntValue w) : Prop := ∀ env, index.eval env = total env w (monomials index)

@[simp]
theorem flattened_append (a b : List (ℕ × IntValue w)) : flattened (a ++ b) = flattened a ++ flattened b :=
  List.flatMap_append

@[simp]
theorem flattened_map (m : ℕ) :
    flattened (parts.map (Prod.map (m * ·) id)) = (flattened parts).map (Prod.map (m * ·) id) := by
  simp only [flattened, List.flatMap_map, List.map_flatMap, List.map_map]
  apply List.flatMap_congr
  intro part _
  apply List.map_congr_left
  rintro ⟨n, name⟩ _
  simp [mul_assoc]

/-- What is to be shown of a flat index. -/
structure Unflattens (parts : List (ℕ × IntValue w)) (flat : IntValue w) : Prop where
  monos : monomials flat = flattened parts
  homogeneous : ∀ part ∈ parts, Homogeneous part.2

theorem Unflattens.times {product value : IntValue w} {m : ℕ} (h : Unflattens parts value)
    (hmonos : monomials product = (monomials value).map (Prod.map (m * ·) id)) :
    Unflattens (parts.map (Prod.map (m * ·) id)) product := by
  refine ⟨by rw [hmonos, h.monos, flattened_map], fun part hpart => ?_⟩
  obtain ⟨original, horiginal, rfl⟩ := List.mem_map.1 hpart
  exact h.homogeneous original horiginal

theorem Unflattens.append {lefts rights : List (ℕ × IntValue w)} {left right : IntValue w}
    (hl : Unflattens lefts left) (hr : Unflattens rights right)
    (hmonos : monomials flat = monomials left ++ monomials right) : Unflattens (lefts ++ rights) flat := by
  refine ⟨by rw [hmonos, flattened_append, hl.monos, hr.monos], fun part hpart => ?_⟩
  exact (List.mem_append.1 hpart).elim (hl.homogeneous part) (hr.homogeneous part)

theorem RowMajor.linear (row : RowMajor parts flat) (linear : ∀ part ∈ parts, Linear part.2) : Linear flat := by
  induction row with
  | zero => exact .const 0
  | index index => exact linear _ (List.mem_singleton_self _)
  | folded stride bits exact => exact .const _
  | add _ _ ihl ihr =>
    rw [List.forall_mem_append] at linear
    exact .add (ihl linear.1) (ihr linear.2)
  | zeroAdd _ _ _ ihr => exact ihr (List.forall_mem_append.1 linear).2
  | addZero _ _ ihl _ => exact ihl (List.forall_mem_append.1 linear).1
  | mulLeft bits _ ih => exact .mulLeft bits (ih fun part h => linear (Prod.map _ id part) (List.mem_map_of_mem h))
  | mulRight bits _ ih => exact .mulRight bits (ih fun part h => linear (Prod.map _ id part) (List.mem_map_of_mem h))

/-- **A row-major index falls apart into the monomials of its indices** when its terms are found. -/
theorem RowMajor.unflattens (row : RowMajor parts flat) (hw : w ≤ 64) (linear : ∀ part ∈ parts, Linear part.2)
    (positive : ∀ part ∈ parts, 0 < part.1) (h : terms flat c = some ts) : Unflattens parts flat := by
  induction row generalizing c ts with
  | zero => exact ⟨by simp [flattened], by simp⟩
  | index index =>
    obtain ⟨-, heval⟩ := terms_spec hw (linear _ (List.mem_singleton_self _)) h
    have hone : Prod.map (1 * ·) id = (id : ℕ × ℕ → ℕ × ℕ) := by
      funext mono
      exact Prod.ext (one_mul _) rfl
    refine ⟨by rw [flattened, List.flatMap_singleton, hone, List.map_id], fun part hpart => ?_⟩
    rw [List.mem_singleton.1 hpart]
    exact heval
  | folded stride bits exact =>
    rw [terms_const hw] at h
    split at h
    · rename_i hzero
      -- the product is exact, and so the index itself is zero
      have hbits : bits = 0 := by
        have hproduct : BitVec.ofNat w stride * bits = 0 := by simpa [← BitVec.toNat_inj] using hzero
        rw [hproduct] at exact
        have hstride : 0 < stride := positive _ (List.mem_singleton_self _)
        apply BitVec.eq_of_toInt_eq
        have hfactor := mul_eq_zero.1 (exact.symm.trans BitVec.toInt_zero)
        have hpart : bits.toInt = 0 := by omega
        exact hpart.trans BitVec.toInt_zero.symm
      subst hbits
      refine ⟨by simp [flattened], fun part hpart => ?_⟩
      rw [List.mem_singleton.1 hpart]
      intro env
      simp [IntValue.eval]
    · cases h
  | add _ _ ihl ihr =>
    rw [terms_add] at h
    obtain ⟨_, hleft, h⟩ := Option.bind_eq_some_iff.1 h
    obtain ⟨_, hright, -⟩ := Option.bind_eq_some_iff.1 h
    rw [List.forall_mem_append] at linear positive
    exact (ihl linear.1 positive.1 hleft).append (ihr linear.2 positive.2 hright) (by rw [monomials])
  | zeroAdd _ _ ihl ihr =>
    have hzero : terms (.const 0 : IntValue w) 1 = some [] := by rw [terms_const hw]; simp
    rw [List.forall_mem_append] at linear positive
    exact (ihl linear.1 positive.1 hzero).append (ihr linear.2 positive.2 h)
      (by rw [monomials_const, List.nil_append])
  | addZero _ _ ihl ihr =>
    have hzero : terms (.const 0 : IntValue w) 1 = some [] := by rw [terms_const hw]; simp
    rw [List.forall_mem_append] at linear positive
    exact (ihl linear.1 positive.1 h).append (ihr linear.2 positive.2 hzero)
      (by rw [monomials_const, List.append_nil])
  | @mulLeft parts value bits _ ih =>
    rw [terms_mulLeft hw] at h
    obtain ⟨n, -, h⟩ := Option.bind_eq_some_iff.1 h
    exact (ih (fun part h => linear (Prod.map _ id part) (List.mem_map_of_mem h))
      (fun part h => Nat.pos_of_mul_pos_left (positive (Prod.map _ id part) (List.mem_map_of_mem h))) h).times
      (monomials_mulLeft bits value)
  | @mulRight parts value bits _ ih =>
    rcases const_or_zeroExtendedConstant value with ⟨other, rfl⟩ | hnone
    · rw [terms_mulLeft hw] at h
      obtain ⟨n, -, h⟩ := Option.bind_eq_some_iff.1 h
      rw [terms_const hw] at h
      split at h
      · rename_i hzero
        -- a stride would be zero
        cases parts with
        | nil => exact ⟨by simp [flattened], by simp⟩
        | cons part rest =>
          have := positive (Prod.map (bits.toNat * ·) id part) (List.mem_map_of_mem List.mem_cons_self)
          simp [hzero] at this
      · cases h
    · rw [terms_mulRight hw hnone] at h
      obtain ⟨n, -, h⟩ := Option.bind_eq_some_iff.1 h
      exact (ih (fun part h => linear (Prod.map _ id part) (List.mem_map_of_mem h))
        (fun part h => Nat.pos_of_mul_pos_left (positive (Prod.map _ id part) (List.mem_map_of_mem h))) h).times
        (monomials_mulRight value bits)

end RowMajor

/-! ## Indices in their places -/

section Places

variable {w : ℕ} {strides : List ℕ} {indices indices' : List (Option (IntValue w))} {p : ℕ}
  {component : ℕ × IntValue w} {components : List (ℕ × IntValue w)} {found : List (IntValue w)}

/-- The indices that are in a place, with the strides of their places. -/
def filled (strides : List ℕ) (indices : List (Option (IntValue w))) : List (ℕ × IntValue w) :=
  (strides.zip indices).filterMap fun slot => slot.2.map (slot.1, ·)

/-- Every index is in the first place with some stride. -/
def InFirst (strides : List ℕ) (indices : List (Option (IntValue w))) : Prop :=
  ∀ (p : ℕ) (value : IntValue w), indices[p]? = some (some value) →
    ∃ c, strides.findIdx? (fun stride => stride = c) = some p

@[simp]
theorem filled_cons (stride : ℕ) (index : Option (IntValue w)) :
    filled (stride :: strides) (index :: indices) = (index.map (stride, ·)).toList ++ filled strides indices := by
  cases index <;> simp [filled]

theorem filled_set {stride : ℕ} {value : IntValue w} (hstride : strides[p]? = some stride)
    (hfree : indices[p]? = some none) :
    (filled strides (indices.set p (some value))).Perm ((stride, value) :: filled strides indices) := by
  induction strides generalizing indices p with
  | nil => cases hstride
  | cons first strides ih =>
    cases indices with
    | nil => cases hfree
    | cons index indices =>
      cases p with
      | zero =>
        obtain rfl := Option.some.inj hstride
        obtain rfl := Option.some.inj hfree
        simp
      | succ p =>
        rw [List.set_cons_succ, filled_cons, filled_cons]
        exact ((ih hstride hfree).append_left _).trans List.perm_middle

/-- What a step does. -/
theorem placeTerm_spec (h : placeTerm strides indices component = some indices') :
    ∃ p, strides.findIdx? (fun stride => stride = component.1) = some p ∧ indices[p]? = some none ∧
      indices' = indices.set p (some component.2) := by
  obtain ⟨p, hp, h⟩ := Option.bind_eq_some_iff.1 h
  split at h
  · rename_i hfree
    exact ⟨p, hp, hfree, (Option.some.inj h).symm⟩
  · cases h

theorem stride_of_findIdx? {c : ℕ} (h : strides.findIdx? (fun stride => stride = c) = some p) :
    strides[p]? = some c ∧ ∀ j < p, strides[j]? ≠ some c := by
  obtain ⟨hp, hc, hbefore⟩ := List.findIdx?_eq_some_iff_getElem.1 h
  refine ⟨by rw [List.getElem?_eq_getElem hp, of_decide_eq_true hc], fun j hj hcontra => ?_⟩
  have hjp := hbefore j hj
  rw [List.getElem?_eq_getElem (by omega)] at hcontra
  exact hjp (decide_eq_true (Option.some.inj hcontra))

theorem placeTerm_step (h : placeTerm strides indices component = some indices') (first : InFirst strides indices) :
    (filled strides indices').Perm (component :: filled strides indices) ∧ InFirst strides indices' ∧
      indices'.length = indices.length := by
  obtain ⟨p, hp, hfree, rfl⟩ := placeTerm_spec h
  refine ⟨filled_set (stride_of_findIdx? hp).1 hfree, fun q value hq => ?_, List.length_set⟩
  rw [List.getElem?_set] at hq
  split at hq
  · rename_i hpq
    exact ⟨_, hpq ▸ hp⟩
  · exact first q value hq

theorem placeTerms_run (h : components.foldlM (placeTerm strides) indices = some indices')
    (first : InFirst strides indices) :
    (filled strides indices').Perm (components ++ filled strides indices) ∧ InFirst strides indices' ∧
      indices'.length = indices.length := by
  induction components generalizing indices with
  | nil =>
    obtain rfl := Option.some.inj h
    exact ⟨List.Perm.refl _, first, rfl⟩
  | cons component components ih =>
    rw [List.foldlM_cons] at h
    obtain ⟨next, hnext, h⟩ := Option.bind_eq_some_iff.1 h
    obtain ⟨hperm, hfirst, hlength⟩ := placeTerm_step hnext first
    obtain ⟨hperm', hfirst', hlength'⟩ := ih h hfirst
    refine ⟨hperm'.trans ?_, hfirst', hlength'.trans hlength⟩
    exact (hperm.append_left _).trans List.perm_middle

theorem filled_replicate (n : ℕ) : filled strides (List.replicate n (none : Option (IntValue w))) = [] := by
  induction strides generalizing n with
  | nil => rfl
  | cons stride strides ih =>
    cases n with
    | zero => rfl
    | succ n => rw [List.replicate_succ, filled_cons, ih]; rfl

theorem filled_some : filled strides (found.map some) = strides.zip found := by
  induction strides generalizing found with
  | nil => rfl
  | cons stride strides ih =>
    cases found with
    | nil => rfl
    | cons index found => rw [List.map_cons, filled_cons, ih]; rfl

theorem eq_map_some_of_mapM (h : indices.mapM id = some found) : indices = found.map some := by
  induction indices generalizing found with
  | nil =>
    rw [List.mapM_nil] at h
    obtain rfl := Option.some.inj h
    rfl
  | cons index indices ih =>
    rw [List.mapM_cons] at h
    obtain ⟨value, hvalue, h⟩ := Option.bind_eq_some_iff.1 h
    obtain ⟨values, hvalues, h⟩ := Option.bind_eq_some_iff.1 h
    obtain rfl := Option.some.inj h
    rw [List.map_cons, ← ih hvalues]
    exact congrArg (· :: indices) hvalue

theorem nodup_of_inFirst (hlength : found.length = strides.length) (first : InFirst strides (found.map some)) :
    strides.Nodup := by
  rw [List.nodup_iff_getElem?_ne_getElem?]
  intro i j hij hj heq
  obtain ⟨c, hc⟩ := first j found[j] (by rw [List.getElem?_map, List.getElem?_eq_getElem (by omega)]; rfl)
  obtain ⟨hstride, hbefore⟩ := stride_of_findIdx? hc
  exact hbefore i hij (heq.trans hstride)

end Places

theorem length_stridesOf {dimensions : List ArrayDimension} {strides : List ℕ} (h : stridesOf dimensions = some strides) :
    strides.length = dimensions.length := by
  induction dimensions using stridesOf.induct generalizing strides with
  | case1 =>
    obtain rfl := Option.some.inj h
    rfl
  | case2 _ =>
    obtain rfl := Option.some.inj h
    rfl
  | case3 first next rest ih =>
    rw [stridesOf] at h
    obtain ⟨others, hothers, h⟩ := Option.bind_eq_some_iff.1 h
    obtain ⟨length, -, h⟩ := Option.bind_eq_some_iff.1 h
    obtain ⟨stride, -, h⟩ := Option.bind_eq_some_iff.1 h
    obtain rfl := Option.some.inj h
    rw [List.length_cons, ih hothers]
    rfl

/-- **Every term is the index of the one dimension with its coefficient as the stride.** -/
theorem flattenedArrayIndices_spec {w : ℕ} {flat : IntValue w} {dimensions : List ArrayDimension} {strides : List ℕ}
    {found : List (IntValue w)} (hstrides : stridesOf dimensions = some strides)
    (h : flattenedArrayIndices flat dimensions = some found) :
    ∃ components, terms flat 1 = some components ∧ (strides.zip found).Perm components ∧ strides.Nodup ∧
      found.length = dimensions.length := by
  rw [flattenedArrayIndices] at h
  obtain ⟨strides', hstrides', h⟩ := Option.bind_eq_some_iff.1 h
  obtain rfl := Option.some.inj (hstrides.symm.trans hstrides')
  obtain ⟨components, hterms, h⟩ := Option.bind_eq_some_iff.1 h
  obtain ⟨indices, hindices, h⟩ := Option.bind_eq_some_iff.1 h
  have hempty : InFirst strides (List.replicate dimensions.length (none : Option (IntValue w))) := by
    intro p value hp
    rw [List.getElem?_replicate] at hp
    split at hp <;> cases hp
  obtain ⟨hperm, hfirst, hlength⟩ := placeTerms_run hindices hempty
  obtain rfl := eq_map_some_of_mapM h
  rw [filled_some, filled_replicate, List.append_nil] at hperm
  rw [List.length_map, List.length_replicate] at hlength
  exact ⟨components, hterms, hperm, nodup_of_inFirst (hlength.trans (length_stridesOf hstrides).symm) hfirst, hlength⟩

/-! ## Bounds -/

section Bounds

variable {w : ℕ} {env : Environment} {dimension : ArrayDimension} {dimensions : List ArrayDimension}
  {index : IntValue w} {condition : IntValue 1}

/-- The greatest zero-based index of a dimension. -/
def ArrayDimension.lastIndex (dimension : ArrayDimension) : Option ℤ := do
  return (← dimension.upper) - (← dimension.lower)

/-- A zero-based index is in the bounds of a dimension. -/
def ArrayDimension.Contains (dimension : ArrayDimension) (i : ℤ) : Prop :=
  ∃ last ∈ dimension.lastIndex, 0 ≤ i ∧ i ≤ last

/-- One of the indices is out of the bounds of its dimension. -/
def OutOfBounds (dimensions : List ArrayDimension) (indices : List (IntValue w)) (env : Environment) : Prop :=
  ∃ access ∈ dimensions.zip indices, ¬access.1.Contains (access.2.eval env).toInt

/-- An index is compared with the last index of a dimension, cut to the width of the index. -/
def Exceeds (dimension : ArrayDimension) (x : BitVec w) : Prop :=
  ∃ last : ℕ, dimension.lastIndex = some (last : ℤ) ∧ (x.toInt < 0 ∨ (BitVec.ofNat w last).toInt < x.toInt)

theorem dimensionCondition_spec (h : dimensionCondition dimension index = some condition) :
    (∃ last : ℕ, dimension.lastIndex = some (last : ℤ)) ∧
      ∀ env, condition.Holds env ↔ Exceeds dimension (index.eval env) := by
  obtain ⟨upper, hupper, h⟩ := Option.bind_eq_some_iff.1 h
  obtain ⟨lower, hlower, h⟩ := Option.bind_eq_some_iff.1 h
  have hlast : dimension.lastIndex = some (upper - lower) := by rw [ArrayDimension.lastIndex, hupper, hlower]; rfl
  dsimp only at h
  split at h
  · cases h
  · rename_i hlength
    obtain rfl := Option.some.inj h
    obtain ⟨last, hnat⟩ := Int.eq_ofNat_of_zero_le (a := upper - lower) (by omega)
    have hcut : (upper - lower + 1 - 1).toNat = last := by omega
    rw [hnat] at hlast
    refine ⟨⟨last, hlast⟩, fun env => ?_⟩
    rw [holds_or, holds_compare, holds_compare, hcut]
    simp only [IntPredicate.holds, BitVec.slt, decide_eq_true_eq]
    constructor
    · intro hout
      refine ⟨last, hlast, ?_⟩
      simpa [IntValue.eval] using hout
    · rintro ⟨other, hother, hout⟩
      obtain rfl : last = other := by
        rw [hlast] at hother
        exact_mod_cast Option.some.inj hother
      simpa [IntValue.eval] using hout

/-- What the conditions of the dimensions come to together. -/
theorem boundsCondition_spec {violation : Option (IntValue 1)} {indices : List (IntValue w)}
    (h : boundsCondition violation dimensions (indices.map fun index => ⟨w, index⟩) = some condition) :
    (∀ access ∈ dimensions.zip indices, ∃ last : ℕ, access.1.lastIndex = some (last : ℤ)) ∧
      ∀ env, condition.Holds env ↔ (∃ previous ∈ violation, previous.Holds env) ∨
        ∃ access ∈ dimensions.zip indices, Exceeds access.1 (access.2.eval env) := by
  induction dimensions generalizing violation indices with
  | nil =>
    obtain rfl : violation = some condition := h
    simp
  | cons dimension dimensions ih =>
    cases indices with
    | nil =>
      obtain rfl : violation = some condition := h
      simp
    | cons index indices =>
      rw [List.map_cons, boundsCondition] at h
      obtain ⟨outside, houtside, h⟩ := Option.bind_eq_some_iff.1 h
      obtain ⟨hlast, hexact⟩ := dimensionCondition_spec houtside
      obtain ⟨hlasts, hrest⟩ := ih h
      refine ⟨by simpa using ⟨hlast, fun a b => hlasts (a, b)⟩, fun env => ?_⟩
      rw [hrest, List.zip_cons_cons, List.exists_mem_cons_iff, ← hexact env, ← or_assoc]
      apply or_congr_left
      cases violation <;> simp

end Bounds

/-! ## Strides -/

section Strides

variable {dimensions : List ArrayDimension} {strides : List ℕ}

theorem dimensionLength_eq {dimension : ArrayDimension} {last length : ℕ} (hlast : dimension.lastIndex = some (last : ℤ))
    (h : dimensionLength dimension = some length) : length = last + 1 := by
  obtain ⟨upper, hupper, hlast⟩ := Option.bind_eq_some_iff.1 hlast
  obtain ⟨lower, hlower, hlast⟩ := Option.bind_eq_some_iff.1 hlast
  have hdifference : upper - lower = last := Option.some.inj hlast
  rw [dimensionLength, hupper, hlower] at h
  simp only [Option.bind_eq_bind, Option.bind_some] at h
  obtain ⟨difference, hdiff, h⟩ := Option.bind_eq_some_iff.1 h
  obtain ⟨total, htotal, h⟩ := Option.bind_eq_some_iff.1 h
  have checked {a b : ℤ} (hab : checkedI64 a = some b) : a = b := by
    rw [checkedI64] at hab
    split at hab
    · exact Option.some.inj hab
    · cases hab
  have hdiff := checked hdiff
  have htotal := checked htotal
  split at h
  · have := Option.some.inj h
    omega
  · cases h

/-- Strides of dimensions that are not empty are positive, and each is a multiple of those after it. -/
theorem stridesOf_spec (h : stridesOf dimensions = some strides)
    (nonempty : ∀ dimension ∈ dimensions, ∃ last : ℕ, dimension.lastIndex = some (last : ℤ)) :
    (∀ stride ∈ strides, 0 < stride) ∧ strides.Pairwise fun a b => b ∣ a := by
  induction dimensions using stridesOf.induct generalizing strides with
  | case1 =>
    obtain rfl := Option.some.inj h
    simp
  | case2 _ =>
    obtain rfl := Option.some.inj h
    simp
  | case3 first next rest ih =>
    rw [stridesOf] at h
    obtain ⟨others, hothers, h⟩ := Option.bind_eq_some_iff.1 h
    obtain ⟨length, hlength, h⟩ := Option.bind_eq_some_iff.1 h
    obtain ⟨stride, hstride, h⟩ := Option.bind_eq_some_iff.1 h
    obtain rfl := Option.some.inj h
    obtain ⟨positive, divides⟩ := ih hothers fun dimension hd => nonempty dimension (List.mem_cons_of_mem _ hd)
    obtain ⟨last, hlast⟩ := nonempty next (List.mem_cons_of_mem _ List.mem_cons_self)
    have hproduct := checkedMul_eq_some hstride
    have hpos := dimensionLength_eq hlast hlength
    cases others with
    | nil =>
      have := length_stridesOf hothers
      simp at this
    | cons head others =>
      have hhead : 0 < head := positive head List.mem_cons_self
      have hmultiple : stride = head * length := hproduct
      refine ⟨List.forall_mem_cons.2 ⟨?_, positive⟩, List.pairwise_cons.2 ⟨fun b hb => ?_, divides⟩⟩
      · rw [hmultiple, hpos]
        positivity
      · rw [hmultiple]
        apply Dvd.dvd.mul_right
        rcases List.mem_cons.1 hb with rfl | hb
        · exact dvd_rfl
        · exact (List.pairwise_cons.1 divides).1 b hb

end Strides

/-! ## Which indices are found -/

section Found

variable {w : ℕ} {dimensions : List ArrayDimension} {strides : List ℕ} {indices found : List (IntValue w)}
  {flat : IntValue w} {condition : IntValue 1}

/-- A flat index into an array, the indices that are found in it, and the condition that is built from them. -/
structure Flattening (dimensions : List ArrayDimension) (strides : List ℕ) (indices : List (IntValue w))
    (flat : IntValue w) (found : List (IntValue w)) (condition : IntValue 1) : Prop where
  width : 0 < w ∧ w ≤ 64
  linear : ∀ index ∈ indices, Linear index
  lengths : indices.length = dimensions.length
  strides_eq : stridesOf dimensions = some strides
  rowMajor : RowMajor (strides.zip indices) flat
  found_eq : flattenedArrayIndices flat dimensions = some found
  condition_eq : boundsCondition none dimensions (found.map fun index => ⟨w, index⟩) = some condition

variable (h : Flattening dimensions strides indices flat found condition)
include h

theorem Flattening.length_found : found.length = dimensions.length :=
  let ⟨_, _, _, _, hlength⟩ := flattenedArrayIndices_spec h.strides_eq h.found_eq
  hlength

theorem Flattening.length_strides : strides.length = dimensions.length := length_stridesOf h.strides_eq

theorem Flattening.holds (env : Environment) :
    condition.Holds env ↔ ∃ access ∈ dimensions.zip found, Exceeds access.1 (access.2.eval env) := by
  rw [(boundsCondition_spec h.condition_eq).2 env]
  simp

theorem Flattening.last (dimension : ArrayDimension) (hd : dimension ∈ dimensions) :
    ∃ last : ℕ, dimension.lastIndex = some (last : ℤ) := by
  rw [← @List.map_fst_zip _ _ dimensions found h.length_found.ge] at hd
  obtain ⟨access, haccess, rfl⟩ := List.mem_map.1 hd
  exact (boundsCondition_spec h.condition_eq).1 access haccess

theorem Flattening.stride_pos : ∀ stride ∈ strides, 0 < stride := (stridesOf_spec h.strides_eq h.last).1

theorem Flattening.stride_dvd {a b : ℕ} (ha : a ∈ strides) (hb : b ∈ strides) : a ∣ b ∨ b ∣ a := by
  have hpairs := (stridesOf_spec h.strides_eq h.last).2.imp (S := fun a b => a ∣ b ∨ b ∣ a) Or.inr
  rcases eq_or_ne a b with rfl | hab
  · exact Or.inl dvd_rfl
  · have symm : Std.Symm fun a b : ℕ => a ∣ b ∨ b ∣ a := ⟨fun _ _ => Or.symm⟩
    exact hpairs.forall ha hb hab

theorem Flattening.unflattens : Unflattens (strides.zip indices) flat := by
  obtain ⟨components, hterms, -⟩ := flattenedArrayIndices_spec h.strides_eq h.found_eq
  exact h.rowMajor.unflattens h.width.2 (fun part hpart => h.linear _ (List.of_mem_zip hpart).2)
    (fun part hpart => h.stride_pos _ (List.of_mem_zip hpart).1) hterms

/-- The found indices are the loaded values, each with a stride. -/
theorem Flattening.found_perm :
    (strides.zip found).Perm ((flattened (strides.zip indices)).map (Prod.map id .read)) ∧ strides.Nodup := by
  obtain ⟨components, hterms, hperm, hnodup, -⟩ := flattenedArrayIndices_spec h.strides_eq h.found_eq
  have hlinear : Linear flat := h.rowMajor.linear fun part hpart => h.linear _ (List.of_mem_zip hpart).2
  obtain ⟨rfl, -⟩ := terms_spec h.width.2 hlinear hterms
  have hone : (1 * ·) = (id : ℕ → ℕ) := funext one_mul
  rw [scaled, h.unflattens.monos, hone] at hperm
  exact ⟨hperm, hnodup⟩

theorem Flattening.strides_perm : strides.Perm ((flattened (strides.zip indices)).map Prod.fst) := by
  have hperm := h.found_perm.1.map Prod.fst
  rw [List.map_fst_zip (h.length_strides.trans h.length_found.symm).le, List.map_map] at hperm
  exact hperm

theorem Flattening.coefficient_mem {stride : ℕ} {index : IntValue w} {mono : ℕ × ℕ}
    (hpart : (stride, index) ∈ strides.zip indices) (hmono : mono ∈ monomials index) : stride * mono.1 ∈ strides := by
  rw [h.strides_perm.mem_iff]
  exact List.mem_map.2 ⟨_, List.mem_flatMap.2 ⟨_, hpart, List.mem_map_of_mem hmono⟩, rfl⟩

end Found

/-! ## One loaded value for each index -/

/-- Multiples that come to no more than what they are multiples of. -/
theorem eq_one_of_sum_le {l : List (ℕ × ℕ)} (hpos : ∀ p ∈ l, 0 < p.1 ∧ 0 < p.2)
    (hsum : (l.map fun p => p.1 * p.2).sum ≤ (l.map Prod.fst).sum) : ∀ p ∈ l, p.2 = 1 := by
  have hle : ∀ p ∈ l, p.1 ≤ p.1 * p.2 := fun p hp => Nat.le_mul_of_pos_right _ (hpos p hp).2
  induction l with
  | nil => simp
  | cons p l ih =>
    rw [List.forall_mem_cons] at hpos hle ⊢
    simp only [List.map_cons, List.sum_cons] at hsum
    have hrest : (l.map Prod.fst).sum ≤ (l.map fun p => p.1 * p.2).sum := List.sum_le_sum hle.2
    have hfirst : p.1 * p.2 ≤ p.1 * 1 := by omega
    have hone := Nat.le_of_mul_le_mul_left hfirst hpos.1.1
    exact ⟨by omega, ih hpos.2 (by omega) hle.2⟩

theorem eq_of_zip_perm {α : Type} {strides : List ℕ} {found names : List α}
    (hnodup : strides.Nodup) (hfound : found.length = strides.length) (hnames : names.length = strides.length)
    (hperm : (strides.zip found).Perm (strides.zip names)) : found = names := by
  apply List.ext_getElem (hfound.trans hnames.symm)
  intro p hp hp'
  have hmem : (strides[p], found[p]) ∈ strides.zip names :=
    hperm.subset (List.mem_iff_getElem.2 ⟨p, by rw [List.length_zip]; omega, List.getElem_zip⟩)
  obtain ⟨q, hq, heq⟩ := List.mem_iff_getElem.1 hmem
  rw [List.getElem_zip, Prod.mk.injEq] at heq
  have hpq : q = p := (hnodup.getElem_inj_iff).1 heq.1
  subst hpq
  exact heq.2.symm

section Exact

variable {w : ℕ} {dimensions : List ArrayDimension} {strides : List ℕ} {indices found : List (IntValue w)}
  {flat : IntValue w} {condition : IntValue 1}

/-- Every index has a loaded value in it. -/
def Loaded (indices : List (IntValue w)) : Prop := ∀ index ∈ indices, loads index ≠ []

/-- Cut to the index type, the last index of the dimension is itself or the greatest value of the type. -/
def ArrayDimension.Represented (w : ℕ) (dimension : ArrayDimension) : Prop :=
  ∃ last : ℕ, dimension.lastIndex = some (last : ℤ) ∧ (BitVec.ofNat w last).toInt = min (last : ℤ) (2 ^ (w - 1) - 1)

theorem sum_flattened (parts : List (ℕ × IntValue w)) :
    ((flattened parts).map Prod.fst).sum =
      (parts.map fun part => part.1 * ((monomials part.2).map Prod.fst).sum).sum := by
  induction parts with
  | nil => rfl
  | cons part parts ih =>
    rw [flattened, List.flatMap_cons, ← flattened, List.map_append, List.sum_append, ih, List.map_cons, List.sum_cons,
      List.map_map, ← List.sum_map_mul_left]
    rfl

variable (h : Flattening dimensions strides indices flat found condition)
include h

/-- **Where every index has a loaded value, it is no more than that value.** -/
theorem Flattening.single (loaded : Loaded indices) (index : IntValue w) (hindex : index ∈ indices) :
    ∃ name, monomials index = [(1, name)] := by
  have hlength : indices.length ≤ strides.length := (h.lengths.trans h.length_strides.symm).le
  have coefficient_pos {part : ℕ × IntValue w} (hpart : part ∈ strides.zip indices) {mono : ℕ × ℕ}
      (hmono : mono ∈ monomials part.2) : 0 < mono.1 :=
    Nat.pos_of_mul_pos_left (h.stride_pos _ (h.coefficient_mem hpart hmono))
  have sum_pos {part : ℕ × IntValue w} (hpart : part ∈ strides.zip indices) :
      0 < ((monomials part.2).map Prod.fst).sum := by
    have hne := loaded part.2 (List.of_mem_zip hpart).2
    rcases hmonos : monomials part.2 with _ | ⟨mono, rest⟩
    · rw [loads, hmonos] at hne
      exact absurd rfl hne
    · have := coefficient_pos hpart (hmonos ▸ List.mem_cons_self)
      rw [List.map_cons, List.sum_cons]
      omega
  -- the coefficients are the strides in some order, and so they come to the same sum
  have hsum := h.strides_perm.sum_eq
  rw [sum_flattened] at hsum
  have hone := eq_one_of_sum_le
    (l := (strides.zip indices).map fun part => (part.1, ((monomials part.2).map Prod.fst).sum))
    (by
      intro p hp
      obtain ⟨part, hpart, rfl⟩ := List.mem_map.1 hp
      exact ⟨h.stride_pos _ (List.of_mem_zip hpart).1, sum_pos hpart⟩)
    (by
      rw [List.map_map, List.map_map]
      have hfst : (strides.zip indices).map Prod.fst = strides :=
        List.map_fst_zip (h.length_strides.trans h.lengths.symm).le
      exact (hsum.symm.trans (congrArg List.sum hfst.symm)).le)
  rw [← @List.map_snd_zip _ _ strides _ hlength] at hindex
  obtain ⟨part, hpart, rfl⟩ := List.mem_map.1 hindex
  have hsumOne := hone _ (List.mem_map_of_mem hpart)
  have hpos := @coefficient_pos part hpart
  have hne := loaded part.2 (List.of_mem_zip hpart).2
  rcases hmonos : monomials part.2 with _ | ⟨⟨coefficient, name⟩, rest⟩
  · rw [loads, hmonos] at hne
    exact absurd rfl hne
  · simp only [hmonos, List.map_cons, List.sum_cons] at hsumOne
    rw [hmonos] at hpos
    have hcoefficient : 0 < coefficient := hpos List.mem_cons_self
    cases rest with
    | nil => exact ⟨name, by rw [show coefficient = 1 by simpa using hsumOne]⟩
    | cons mono rest =>
      have hmono := hpos (List.mem_cons_of_mem _ List.mem_cons_self)
      rw [List.map_cons, List.sum_cons] at hsumOne
      omega

theorem Flattening.found_names (loaded : Loaded indices) :
    ∃ name : IntValue w → ℕ, (∀ index ∈ indices, monomials index = [(1, name index)]) ∧
      found = indices.map fun index => .read (name index) := by
  choose! name hname using h.single loaded
  refine ⟨name, hname, ?_⟩
  have hflattened : (flattened (strides.zip indices)).map (Prod.map id .read) =
      strides.zip (indices.map fun index => (.read (name index) : IntValue w)) := by
    have hparts : flattened (strides.zip indices) = (strides.zip indices).flatMap fun part => [(part.1, name part.2)] := by
      apply List.flatMap_congr
      intro part hpart
      rw [hname _ (List.of_mem_zip hpart).2]
      simp
    rw [hparts, ← List.map_eq_flatMap, List.map_map, List.zip_map_right]
    rfl
  obtain ⟨hperm, hnodup⟩ := h.found_perm
  rw [hflattened] at hperm
  apply eq_of_zip_perm hnodup (h.length_found.trans h.length_strides.symm) _ hperm
  rw [List.length_map, h.lengths, h.length_strides]

theorem Flattening.found_eval (loaded : Loaded indices) (env : Environment) :
    found.map (IntValue.eval env) = indices.map (IntValue.eval env) := by
  obtain ⟨name, hname, rfl⟩ := h.found_names loaded
  rw [List.map_map]
  apply List.map_congr_left
  intro index hindex
  have hlength : indices.length ≤ strides.length := (h.lengths.trans h.length_strides.symm).le
  rw [← @List.map_snd_zip _ _ strides _ hlength] at hindex
  obtain ⟨part, hpart, rfl⟩ := List.mem_map.1 hindex
  rw [h.unflattens.homogeneous part hpart env, hname _ (List.of_mem_zip hpart).2]
  simp [total, IntValue.eval]

end Exact

/-- Where the last index is represented, the comparisons are exact. -/
theorem exceeds_iff {w : ℕ} {dimension : ArrayDimension} (represented : dimension.Represented w) (x : BitVec w) :
    Exceeds dimension x ↔ ¬dimension.Contains x.toInt := by
  obtain ⟨last, hlast, hcut⟩ := represented
  have hmax : x.toInt ≤ 2 ^ (w - 1) - 1 := by
    have := BitVec.toInt_lt (x := x)
    omega
  rw [Exceeds, ArrayDimension.Contains]
  simp only [hlast, Option.mem_def, Option.some.injEq, exists_eq_left', Nat.cast_inj]
  rw [hcut]
  omega

/-! ## Loaded values that are mistaken for indices -/

section Loading

variable {w : ℕ} {value : ℕ → ℤ} {monos : List (ℕ × ℕ)}

/-- An environment with these loaded values. -/
def loading (value : ℕ → ℤ) : Environment := { reading 0 with ints := fun w name => BitVec.ofInt w (value name) }

theorem total_loading :
    total (loading value) w monos = BitVec.ofInt w (monos.map fun mono => (mono.1 : ℤ) * value mono.2).sum := by
  induction monos with
  | nil => simp [total]
  | cons mono monos ih =>
    rw [total] at ih ⊢
    rw [List.map_cons, List.sum_cons, ih, List.map_cons, List.sum_cons, BitVec.ofInt_add, BitVec.ofInt_mul,
      BitVec.ofInt_natCast]
    rfl

theorem total_loading_eq_zero (h : ∀ mono ∈ monos, value mono.2 = 0) : total (loading value) w monos = 0 := by
  have hzero : (monos.map fun mono => (mono.1 : ℤ) * value mono.2) = monos.map fun _ => 0 := by
    apply List.map_congr_left
    intro mono hmono
    rw [h mono hmono, mul_zero]
  rw [total_loading, hzero]
  simp

theorem exists_two_le {α : Type} {l : List α} {f : α → ℕ} (hsum : (l.map f).sum = l.length)
    (hzero : ∃ x ∈ l, f x = 0) : ∃ x ∈ l, 2 ≤ f x := by
  by_contra hcontra
  push Not at hcontra
  obtain ⟨x, hx, hfx⟩ := hzero
  have hlt : (l.map f).sum < (l.map fun _ => 1).sum :=
    List.sum_lt_sum f (fun _ => 1) (fun y hy => by have := hcontra y hy; omega) ⟨x, hx, by omega⟩
  have hones : (l.map fun _ => 1).sum = l.length := by simp
  omega

end Loading

section Mistaken

variable {w : ℕ} {dimensions : List ArrayDimension} {strides : List ℕ} {indices found : List (IntValue w)}
  {flat : IntValue w} {condition : IntValue 1}

/-- The condition says exactly that an index is out of bounds. -/
def Exact (dimensions : List ArrayDimension) (indices : List (IntValue w)) (condition : IntValue 1) : Prop :=
  ∀ env, condition.Holds env ↔ OutOfBounds dimensions indices env

variable (h : Flattening dimensions strides indices flat found condition)
include h

theorem Flattening.homogeneous {index : IntValue w} (hindex : index ∈ indices) : Homogeneous index := by
  have hlength : indices.length ≤ strides.length := (h.lengths.trans h.length_strides.symm).le
  rw [← @List.map_snd_zip _ _ strides _ hlength] at hindex
  obtain ⟨part, hpart, rfl⟩ := List.mem_map.1 hindex
  exact h.unflattens.homogeneous part hpart

/-- Indices that are all zero are in bounds. -/
theorem Flattening.zero_inBounds {env : Environment} (hzero : ∀ index ∈ indices, index.eval env = 0) :
    ¬OutOfBounds dimensions indices env := by
  rintro ⟨access, haccess, hout⟩
  obtain ⟨hd, hindex⟩ := List.of_mem_zip haccess
  obtain ⟨last, hlast⟩ := h.last access.1 hd
  refine hout ⟨last, hlast, ?_⟩
  rw [hzero access.2 hindex]
  simp

/-- A multiple of one loaded value can cancel another, which is taken for an index of its own. -/
theorem Flattening.not_multiple (distinct : (indices.flatMap loads).Nodup) {index : IntValue w} (hindex : index ∈ indices)
    {a b x y : ℕ} {rest : List (ℕ × ℕ)} (hperm : (monomials index).Perm ((a, x) :: (b, y) :: rest)) (hdvd : a ∣ b) :
    ¬Exact dimensions indices condition := by
  intro exact
  obtain ⟨r, rfl⟩ := hdvd
  obtain ⟨hnodup, hdisjoint⟩ := List.nodup_flatMap.1 distinct
  have hnames : (x :: y :: rest.map Prod.snd).Nodup := (hperm.map Prod.snd).nodup_iff.1 (hnodup index hindex)
  rw [List.nodup_cons, List.nodup_cons, List.mem_cons, not_or] at hnames
  obtain ⟨⟨hxy, hx⟩, hy, -⟩ := hnames
  let value : ℕ → ℤ := fun name => if name = x then r else if name = y then -1 else 0
  have hvaluex : value x = r := if_pos rfl
  have hvaluey : value y = -1 := by rw [show value y = if y = x then (r : ℤ) else if y = y then -1 else 0 from rfl,
    if_neg (Ne.symm hxy), if_pos rfl]
  have hother (name : ℕ) (hnx : name ≠ x) (hny : name ≠ y) : value name = 0 := by
    rw [show value name = if name = x then (r : ℤ) else if name = y then -1 else 0 from rfl, if_neg hnx, if_neg hny]
  have hrest : total (loading value) w rest = 0 := by
    apply total_loading_eq_zero
    intro mono hmono
    have hmem := List.mem_map_of_mem (f := Prod.snd) hmono
    exact hother _ (fun heq => hx (heq ▸ hmem)) (fun heq => hy (heq ▸ hmem))
  have hzero : ∀ other ∈ indices, other.eval (loading value) = 0 := by
    intro other hmem
    rw [h.homogeneous hmem]
    rcases eq_or_ne other index with rfl | hne
    · rw [total_perm hperm, show (a, x) :: (a * r, y) :: rest = [(a, x), (a * r, y)] ++ rest from rfl, total_append, hrest,
        total_loading]
      simp [hvaluex, hvaluey]
    · -- the names of another index are other names
      have symm : Std.Symm (Function.onFun List.Disjoint (loads (w := w))) := ⟨fun _ _ => List.Disjoint.symm⟩
      have hnames := hdisjoint.forall hmem hindex hne
      apply total_loading_eq_zero
      intro mono hmono
      have hload : mono.2 ∈ loads other := List.mem_map_of_mem hmono
      have hmine {name : ℕ} (hname : name = x ∨ name = y) : name ∈ loads index := by
        rw [loads, (hperm.map Prod.snd).mem_iff]
        rcases hname with rfl | rfl <;> simp
      exact hother _ (fun heq => hnames hload (hmine (Or.inl heq))) (fun heq => hnames hload (hmine (Or.inr heq)))
  apply h.zero_inBounds hzero
  rw [← exact, h.holds]
  -- the loaded value that is negative is one of the found indices
  have hlength : indices.length ≤ strides.length := (h.lengths.trans h.length_strides.symm).le
  rw [← @List.map_snd_zip _ _ strides _ hlength] at hindex
  obtain ⟨part, hpart, rfl⟩ := List.mem_map.1 hindex
  have hfound : (.read y : IntValue w) ∈ found := by
    have hmono : (a * r, y) ∈ monomials part.2 := hperm.symm.subset (List.mem_cons_of_mem _ List.mem_cons_self)
    have hflat : (part.1 * (a * r), y) ∈ flattened (strides.zip indices) :=
      List.mem_flatMap.2 ⟨part, hpart, List.mem_map_of_mem (f := Prod.map (part.1 * ·) id) hmono⟩
    exact (List.of_mem_zip (h.found_perm.1.symm.subset (List.mem_map_of_mem hflat))).2
  rw [← @List.map_snd_zip _ _ dimensions _ h.length_found.le] at hfound
  obtain ⟨access, haccess, hread⟩ := List.mem_map.1 hfound
  obtain ⟨last, hlast⟩ := h.last access.1 (List.of_mem_zip haccess).1
  refine ⟨access, haccess, last, hlast, Or.inl ?_⟩
  have heval : access.2.eval (loading value) = BitVec.ofInt w (-1) := by
    rw [hread, IntValue.eval, ← hvaluey]
    rfl
  rw [heval]
  have hpow : (0 : ℤ) < 2 ^ (w - 1) := by positivity
  rw [BitVec.toInt_ofInt_eq_self h.width.1 (by omega) (by omega)]
  decide

theorem Flattening.loaded_of_exact (distinct : (indices.flatMap loads).Nodup)
    (exact : Exact dimensions indices condition) : Loaded indices := by
  by_contra hcontra
  rw [Loaded] at hcontra
  push Not at hcontra
  obtain ⟨empty, hempty, hnone⟩ := hcontra
  have hlength : indices.length ≤ strides.length := (h.lengths.trans h.length_strides.symm).le
  -- there are as many loaded values as indices
  have hcount : (indices.map fun index => (monomials index).length).sum = indices.length := by
    have hflat := h.strides_perm.length_eq
    rw [List.length_map, flattened, List.length_flatMap] at hflat
    have hsnd : (strides.zip indices).map Prod.snd = indices := List.map_snd_zip hlength
    rw [h.lengths, ← h.length_strides, hflat, ← hsnd, List.map_map, hsnd]
    simp only [List.length_map]
    rfl
  obtain ⟨index, hindex, htwo⟩ := exists_two_le hcount
    ⟨empty, hempty, by rw [← List.length_map (f := Prod.snd), ← loads, hnone]; rfl⟩
  rcases hmonos : monomials index with _ | ⟨⟨a, x⟩, _ | ⟨⟨b, y⟩, rest⟩⟩
  · simp [hmonos] at htwo
  · simp [hmonos] at htwo
  · have hmem := hindex
    rw [← @List.map_snd_zip _ _ strides _ hlength] at hmem
    obtain ⟨part, hpart, rfl⟩ := List.mem_map.1 hmem
    have hpos := h.stride_pos _ (List.of_mem_zip hpart).1
    have hleft : (a, x) ∈ monomials part.2 := by rw [hmonos]; simp
    have ha : part.1 * a ∈ strides := h.coefficient_mem hpart hleft
    have hright : (b, y) ∈ monomials part.2 := by rw [hmonos]; simp
    have hb : part.1 * b ∈ strides := h.coefficient_mem hpart hright
    rcases h.stride_dvd ha hb with hdvd | hdvd
    · exact h.not_multiple distinct hindex (List.Perm.of_eq hmonos) (Nat.dvd_of_mul_dvd_mul_left hpos hdvd) exact
    · have hswap := (List.Perm.of_eq hmonos).trans (List.Perm.swap _ _ _)
      exact h.not_multiple distinct hindex hswap (Nat.dvd_of_mul_dvd_mul_left hpos hdvd) exact

theorem Flattening.holds_iff (loaded : Loaded indices) (env : Environment) :
    condition.Holds env ↔ ∃ access ∈ dimensions.zip indices, Exceeds access.1 (access.2.eval env) := by
  have values (l : List (IntValue w)) : (∃ access ∈ dimensions.zip l, Exceeds access.1 (access.2.eval env)) ↔
      ∃ access ∈ dimensions.zip (l.map (IntValue.eval env)), Exceeds access.1 access.2 := by
    rw [List.zip_map_right]
    simp
  rw [h.holds, values, h.found_eval loaded, ← values]

theorem Flattening.exact_of_represented (loaded : Loaded indices)
    (represented : ∀ dimension ∈ dimensions, dimension.Represented w) : Exact dimensions indices condition := by
  intro env
  rw [h.holds_iff loaded, OutOfBounds]
  constructor
  · rintro ⟨access, haccess, hout⟩
    exact ⟨access, haccess, (exceeds_iff (represented _ (List.of_mem_zip haccess).1) _).1 hout⟩
  · rintro ⟨access, haccess, hout⟩
    exact ⟨access, haccess, (exceeds_iff (represented _ (List.of_mem_zip haccess).1) _).2 hout⟩

theorem Flattening.represented_of_exact (distinct : (indices.flatMap loads).Nodup)
    (exact : Exact dimensions indices condition) : ∀ dimension ∈ dimensions, dimension.Represented w := by
  have loaded := h.loaded_of_exact distinct exact
  obtain ⟨name, hname, -⟩ := h.found_names loaded
  have heval (value : ℕ → ℤ) {index : IntValue w} (hindex : index ∈ indices) :
      index.eval (loading value) = BitVec.ofInt w (value (name index)) := by
    rw [h.homogeneous hindex, total_loading, hname index hindex]
    simp
  intro dimension hd
  obtain ⟨last, hlast⟩ := h.last dimension hd
  obtain ⟨k, hk, rfl⟩ := List.mem_iff_getElem.1 hd
  have hk' : k < indices.length := h.lengths ▸ hk
  have haccess : (dimensions[k], indices[k]) ∈ dimensions.zip indices :=
    List.mem_iff_getElem.2 ⟨k, by rw [List.length_zip]; omega, List.getElem_zip⟩
  have hpow : (0 : ℤ) < 2 ^ (w - 1) := by positivity
  refine ⟨last, hlast, ?_⟩
  rcases lt_or_ge (last : ℤ) (2 ^ (w - 1)) with hsmall | hlarge
  · have hcut := BitVec.toInt_ofInt_eq_self h.width.1 (n := last) (by omega) hsmall
    rw [BitVec.ofInt_natCast] at hcut
    omega
  · -- the index takes the greatest value of its type, and all others are zero
    let value : ℕ → ℤ := fun n => if n = name indices[k] then 2 ^ (w - 1) - 1 else 0
    have hmax : (indices[k].eval (loading value)).toInt = 2 ^ (w - 1) - 1 := by
      rw [heval value (List.getElem_mem hk'), show value (name indices[k]) = 2 ^ (w - 1) - 1 from if_pos rfl]
      exact BitVec.toInt_ofInt_eq_self h.width.1 (by omega) (by omega)
    have hin : ¬OutOfBounds dimensions indices (loading value) := by
      rintro ⟨access, hmem, hout⟩
      obtain ⟨j, hj, rfl⟩ := List.mem_iff_getElem.1 hmem
      rw [List.length_zip] at hj
      rw [List.getElem_zip] at hout
      rcases eq_or_ne j k with rfl | hjk
      · exact hout ⟨last, hlast, by rw [hmax]; omega, by rw [hmax]; omega⟩
      · have hother : name indices[j] ≠ name indices[k] := by
          have hpairs := (List.nodup_flatMap.1 distinct).2
          have hload (i : ℕ) (hi : i < indices.length) : name indices[i] ∈ loads indices[i] := by
            rw [loads, hname _ (List.getElem_mem hi)]
            simp
          intro heq
          rcases Nat.lt_or_gt_of_ne hjk with hlt | hgt
          · exact List.pairwise_iff_getElem.1 hpairs j k (by omega) hk' hlt (hload j (by omega)) (heq ▸ hload k hk')
          · exact List.pairwise_iff_getElem.1 hpairs k j hk' (by omega) hgt (hload k hk') (heq ▸ hload j (by omega))
        obtain ⟨other, hlast'⟩ := h.last dimensions[j] (List.getElem_mem _)
        refine hout ⟨other, hlast', ?_⟩
        rw [heval value (List.getElem_mem _), show value (name indices[j]) = 0 from if_neg hother]
        simp
    rw [← exact, h.holds_iff loaded] at hin
    have hcut := BitVec.toInt_lt (x := BitVec.ofNat w last)
    have hbelow : ¬(BitVec.ofNat w last).toInt < 2 ^ (w - 1) - 1 := fun hlt =>
      hin ⟨_, haccess, last, hlast, Or.inr (by rw [hmax]; exact hlt)⟩
    omega

end Mistaken

/-- **The condition of an array access is exact** where every index has a loaded value and the last index of every
dimension is represented, and only there when no value is loaded twice. -/
theorem array_condition_exact_iff {w : ℕ} {dimensions : List ArrayDimension} {strides : List ℕ}
    {indices found : List (IntValue w)} {flat : IntValue w} {condition : IntValue 1}
    (h : Flattening dimensions strides indices flat found condition) :
    (Loaded indices ∧ (∀ dimension ∈ dimensions, dimension.Represented w) → Exact dimensions indices condition) ∧
      ((indices.flatMap loads).Nodup → Exact dimensions indices condition →
        Loaded indices ∧ ∀ dimension ∈ dimensions, dimension.Represented w) :=
  ⟨fun ⟨loaded, represented⟩ => h.exact_of_represented loaded represented,
    fun distinct exact => ⟨h.loaded_of_exact distinct exact, h.represented_of_exact distinct exact⟩⟩

/-- Two dimensions, of two and three elements. -/
def matrix : List ArrayDimension := [⟨some 0, some 1⟩, ⟨some 0, some 2⟩]

/-- The condition for two loaded values as its indices. -/
def matrixCondition : IntValue 1 :=
  .or (.or (.compare .slt (.read 0 : IntValue 32) (.const 0)) (.compare .sgt (.read 0 : IntValue 32) (.const 1)))
    (.or (.compare .slt (.read 1 : IntValue 32) (.const 0)) (.compare .sgt (.read 1 : IntValue 32) (.const 2)))

theorem flattening_matrix : Flattening matrix [3, 1] [.read 0, .read 1]
    (.add (.mul (.read 0) (.const 3)) (.read 1) : IntValue 32) [.read 0, .read 1] matrixCondition where
  width := by decide
  linear := by
    intro index hindex
    simp only [List.mem_cons, List.not_mem_nil, or_false] at hindex
    rcases hindex with rfl | rfl <;> exact .read _
  lengths := rfl
  strides_eq := by decide
  rowMajor := .add (.mulRight 3 (.index (.read 0))) (.index (.read 1))
  found_eq := rfl
  condition_eq := rfl

theorem array_condition_exact_iff_matrix : Exact matrix [.read 0, (.read 1 : IntValue 32)] matrixCondition := by
  apply (array_condition_exact_iff flattening_matrix).1
  constructor
  · intro index hindex
    simp only [List.mem_cons, List.not_mem_nil, or_false] at hindex
    rcases hindex with rfl | rfl <;> exact List.cons_ne_nil _ _
  · intro dimension hd
    simp only [matrix, List.mem_cons, List.not_mem_nil, or_false] at hd
    rcases hd with rfl | rfl
    · exact ⟨1, rfl, by decide⟩
    · exact ⟨2, rfl, by decide⟩

/-- `a[0, 3 * x + y]`: the loaded values are taken for the indices, and an index of three is not found. -/
theorem array_condition_not_exact : ∃ flat : IntValue 32,
    Flattening matrix [3, 1] [.const 0, .add (.mul (.read 0) (.const 3)) (.read 1)] flat [.read 0, .read 1]
        matrixCondition ∧
      ¬Exact matrix [.const 0, (.add (.mul (.read 0) (.const 3)) (.read 1) : IntValue 32)] matrixCondition := by
  have hzero : RowMajor [(3, .const 0)] (.const 0 : IntValue 32) := .folded 3 0 rfl
  have hlinear : Linear (.add (.mul (.read 0) (.const 3)) (.read 1) : IntValue 32) :=
    .add (.mulRight 3 (.read 0)) (.read 1)
  refine ⟨_, ⟨by decide, ?_, rfl, by decide, .add hzero (.index _), rfl, rfl⟩, fun exact => ?_⟩
  · intro index hindex
    simp only [List.mem_cons, List.not_mem_nil, or_false] at hindex
    rcases hindex with rfl | rfl
    · exact .const 0
    · exact hlinear
  · have hout : OutOfBounds matrix [.const 0, (.add (.mul (.read 0) (.const 3)) (.read 1) : IntValue 32)]
        (loading fun name => if name = 0 then 1 else 0) := by
      refine ⟨(⟨some 0, some 2⟩, _), List.mem_cons_of_mem _ List.mem_cons_self, ?_⟩
      rintro ⟨last, hlast, -, hle⟩
      obtain rfl : (2 : ℤ) = last := Option.some.inj hlast
      exact absurd hle (by decide +kernel)
    have hholds := (exact _).2 hout
    rw [IntValue.Holds] at hholds
    exact absurd hholds (by decide +kernel)

end SemantiST.Stg.Ir
