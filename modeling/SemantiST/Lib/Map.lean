import Mathlib.Data.List.Induction
import Mathlib.Data.List.Nodup
import Std.Data.ExtTreeMap
import Std.Data.ExtTreeSet

/-!
# Ordered maps

Lists of assignments into an ordered map, where the last one to a key wins.
-/

namespace SemantiST.Lib

open Std

variable {κ ν : Type} {k k' : κ} {v : ν} {l l' : List (κ × ν)}

/-! ## Lists of assignments -/

section Assignments

variable [DecidableEq κ]

/-- The value of the last assignment to `k`. -/
def lastValue (l : List (κ × ν)) (k : κ) : Option ν :=
  (l.reverse.find? fun p => p.1 = k).map Prod.snd

@[simp] theorem lastValue_nil : lastValue ([] : List (κ × ν)) k = none := rfl

theorem lastValue_append : lastValue (l ++ l') k = (lastValue l' k).or (lastValue l k) := by
  simp only [lastValue, List.reverse_append, List.find?_append]
  cases l'.reverse.find? fun p => p.1 = k <;> simp

theorem lastValue_singleton : lastValue [(k', v)] k = if k' = k then some v else none := by
  by_cases h : k' = k <;> simp [lastValue, h]

theorem lastValue_concat :
    lastValue (l ++ [(k', v)]) k = if k' = k then some v else lastValue l k := by
  rw [lastValue_append, lastValue_singleton]
  split <;> simp

theorem mem_of_lastValue (h : lastValue l k = some v) : (k, v) ∈ l := by
  obtain ⟨p, hp, rfl⟩ := Option.map_eq_some_iff.1 h
  have hk : p.1 = k := by simpa using List.find?_some hp
  have := List.mem_of_find?_eq_some hp
  rw [List.mem_reverse] at this
  rwa [← hk]

theorem lastValue_eq_none_iff : lastValue l k = none ↔ k ∉ l.map Prod.fst := by
  simp only [lastValue, Option.map_eq_none_iff, List.find?_eq_none, List.mem_reverse,
    decide_eq_true_eq, List.mem_map, not_exists, not_and]

/-- In a list with distinct keys, an assignment is the last one to its key. -/
theorem lastValue_of_mem (hl : (l.map Prod.fst).Nodup) (h : (k, v) ∈ l) : lastValue l k = some v := by
  cases hv : lastValue l k with
  | none => exact absurd (List.mem_map_of_mem h) (lastValue_eq_none_iff.1 hv)
  | some w =>
    have := List.inj_on_of_nodup_map hl h (mem_of_lastValue hv) rfl
    rw [Prod.mk.injEq] at this
    rw [this.2]

/-- Keeping the assignments to some keys. -/
theorem lastValue_filter (f : κ → Bool) :
    lastValue (l.filter fun p => f p.1) k = if f k then lastValue l k else none := by
  induction l using List.reverseRecOn with
  | nil => simp
  | append_singleton l p ih =>
    rcases p with ⟨k', v⟩
    rw [List.filter_append, lastValue_append, ih, lastValue_concat]
    by_cases hp : k' = k
    · subst hp
      cases hf : f k' <;> simp [hf, lastValue_singleton]
    · cases hf : f k' <;> simp [hf, hp, lastValue_singleton]

end Assignments

/-! ## Maps -/

section Maps

variable [Ord κ] [TransOrd κ] {m : ExtTreeMap κ ν compare}

/-- The assignments of `l`, made one after the other. -/
def insertAll (m : ExtTreeMap κ ν compare) (l : List (κ × ν)) : ExtTreeMap κ ν compare :=
  l.foldl (fun m p => m.insert p.1 p.2) m

@[simp] theorem insertAll_nil : insertAll m [] = m := rfl

theorem insertAll_append : insertAll m (l ++ l') = insertAll (insertAll m l) l' :=
  List.foldl_append

variable [LawfulEqOrd κ] [DecidableEq κ]

theorem getElem?_insert_eq : (m.insert k v)[k']? = if k = k' then some v else m[k']? := by
  simp [ExtTreeMap.getElem?_insert]

theorem getElem?_insertIfNew_eq :
    (m.insertIfNew k v)[k']? = if k = k' then some (m[k]?.getD v) else m[k']? := by
  rw [ExtTreeMap.getElem?_insertIfNew]
  by_cases h : k = k'
  · subst h
    cases hm : m[k]? with
    | none =>
      have : k ∉ m := by
        rw [ExtTreeMap.mem_iff_isSome_getElem?, hm]
        exact Bool.false_ne_true
      simp [this]
    | some w =>
      have : k ∈ m := by
        rw [ExtTreeMap.mem_iff_isSome_getElem?, hm]
        rfl
      simp [this]
  · simp [h]

/-- **The last assignment wins.** -/
theorem getElem?_insertAll : (insertAll m l)[k]? = (lastValue l k).or m[k]? := by
  induction l using List.reverseRecOn with
  | nil => rfl
  | append_singleton l p ih =>
    rw [insertAll_append, lastValue_concat]
    simp only [insertAll, List.foldl_cons, List.foldl_nil] at ih ⊢
    rw [getElem?_insert_eq, ih]
    split <;> simp

omit [DecidableEq κ] in
theorem nodup_keys_toList (m : ExtTreeMap κ ν compare) : (m.toList.map Prod.fst).Nodup := by
  have h := ExtTreeMap.distinct_keys_toList (t := m)
  rw [List.Nodup, List.pairwise_map]
  exact h.imp fun hne heq => hne (by rw [heq]; simp)

/-- A map is what its entries assign. -/
theorem insertAll_toList (m : ExtTreeMap κ ν compare) : insertAll ∅ m.toList = m := by
  have hnodup := nodup_keys_toList m
  apply ExtTreeMap.ext_getElem?
  intro k
  rw [getElem?_insertAll]
  cases hv : lastValue m.toList k with
  | none =>
    cases hm : m[k]? with
    | none => simp
    | some v =>
      have := lastValue_of_mem hnodup (ExtTreeMap.mem_toList_iff_getElem?_eq_some.2 hm)
      rw [hv] at this
      cases this
  | some v => simp [ExtTreeMap.mem_toList_iff_getElem?_eq_some.1 (mem_of_lastValue hv)]

/-- The entries of a map assign what it holds. -/
theorem lastValue_toList (m : ExtTreeMap κ ν compare) (k : κ) : lastValue m.toList k = m[k]? := by
  conv_rhs => rw [← insertAll_toList m]
  rw [getElem?_insertAll]
  simp

/-- Inserting entries that are there changes nothing. -/
theorem foldl_insertIfNew_eq_self {α : Type} (key : α → κ) {f : α → ν} {l : List α}
    (h : ∀ a ∈ l, (m[key a]?).isSome) :
    l.foldl (fun m a => m.insertIfNew (key a) (f a)) m = m := by
  induction l with
  | nil => rfl
  | cons a l ih =>
    have ha : m.insertIfNew (key a) (f a) = m := by
      obtain ⟨v, hv⟩ := Option.isSome_iff_exists.1 (h a List.mem_cons_self)
      apply ExtTreeMap.ext_getElem?
      intro k
      rw [getElem?_insertIfNew_eq]
      split
      · rename_i heq
        rw [← heq, hv]
        rfl
      · rfl
    rw [List.foldl_cons, ha]
    exact ih fun b hb => h b (List.mem_cons_of_mem _ hb)

end Maps

/-! ## Sets -/

section Sets

variable [Ord κ] [TransOrd κ] [LawfulEqOrd κ]

/-- The elements of a list, sorted and without repetition. -/
def sortedSet (l : List κ) : List κ :=
  (l.foldl (fun s k => s.insert k) (∅ : ExtTreeSet κ compare)).toList

theorem mem_sortedSet {l : List κ} {k : κ} : k ∈ sortedSet l ↔ k ∈ l := by
  rw [sortedSet, ExtTreeSet.mem_toList]
  induction l using List.reverseRecOn with
  | nil => simp
  | append_singleton l k' ih =>
    rw [List.foldl_append, List.foldl_cons, List.foldl_nil, ExtTreeSet.mem_insert, ih,
      LawfulEqCmp.compare_eq_iff_eq, List.mem_append, List.mem_singleton]
    rw [or_comm, eq_comm]

end Sets

end SemantiST.Lib
