import Mathlib.Algebra.BigOperators.Group.List.Basic
import Mathlib.Algebra.Ring.Nat
import Mathlib.Data.List.Nodup

/-!
# Dictionaries in order of insertion

An assignment to a key that is there keeps its place; a new one goes to the end.
-/

namespace SemantiST.Lib

variable {κ ν : Type} [DecidableEq κ]

/-- `d[k] = v` -/
def put (d : List (κ × ν)) (k : κ) (v : ν) : List (κ × ν) :=
  if k ∈ d.map Prod.fst then d.map fun entry => if entry.1 = k then (k, v) else entry else d ++ [(k, v)]

/-- `d.get(k)` -/
def value (d : List (κ × ν)) (k : κ) : Option ν := (d.find? fun entry => entry.1 = k).map Prod.snd

variable {d : List (κ × ν)} {k k' : κ} {v w : ν}

theorem keys_put : (put d k v).map Prod.fst =
    if k ∈ d.map Prod.fst then d.map Prod.fst else d.map Prod.fst ++ [k] := by
  unfold put
  split
  · rw [List.map_map]
    refine List.map_congr_left fun entry _ => ?_
    rw [Function.comp_apply]
    split
    · rename_i heq
      exact heq.symm
    · rfl
  · simp

theorem mem_keys_put : k' ∈ (put d k v).map Prod.fst ↔ k' ∈ d.map Prod.fst ∨ k' = k := by
  rw [keys_put]
  split
  · rename_i hk
    constructor
    · exact .inl
    · rintro (h | rfl)
      · exact h
      · exact hk
  · rw [List.mem_append, List.mem_singleton]

theorem nodup_put (h : (d.map Prod.fst).Nodup) : ((put d k v).map Prod.fst).Nodup := by
  rw [keys_put]
  split
  · exact h
  · rename_i hk
    rw [List.nodup_append]
    refine ⟨h, List.nodup_singleton k, ?_⟩
    rintro a ha b hb rfl
    rw [List.mem_singleton.1 hb] at ha
    exact hk ha

theorem length_put_le : (put d k v).length ≤ d.length + 1 := by
  unfold put
  split
  · rw [List.length_map]
    omega
  · have hlength : (d ++ [(k, v)]).length = d.length + 1 := List.length_append
    omega

/-- What is in a dictionary after an assignment. -/
theorem mem_put {entry : κ × ν} (h : entry ∈ put d k v) : entry = (k, v) ∨ entry ∈ d := by
  unfold put at h
  split at h
  · obtain ⟨old, hold, heq⟩ := List.mem_map.1 h
    split at heq
    · exact .inl heq.symm
    · exact .inr (heq ▸ hold)
  · rcases List.mem_append.1 h with h | h
    · exact .inr h
    · exact .inl (List.mem_singleton.1 h)

theorem value_eq_none_iff : value d k = none ↔ k ∉ d.map Prod.fst := by
  rw [value, Option.map_eq_none_iff, List.find?_eq_none]
  simp only [decide_eq_true_eq, List.mem_map, not_exists, not_and]

theorem mem_of_value (h : value d k = some v) : (k, v) ∈ d := by
  obtain ⟨entry, hentry, rfl⟩ := Option.map_eq_some_iff.1 h
  have hk : entry.1 = k := by simpa using List.find?_some hentry
  rw [← hk]
  exact List.mem_of_find?_eq_some hentry

/-- Under distinct keys, what is in a dictionary is found. -/
theorem value_eq_some_iff (h : (d.map Prod.fst).Nodup) : value d k = some v ↔ (k, v) ∈ d := by
  refine ⟨mem_of_value, fun hmem => ?_⟩
  cases hv : value d k with
  | none => exact absurd (List.mem_map_of_mem hmem) (value_eq_none_iff.1 hv)
  | some w =>
    have heq := List.inj_on_of_nodup_map h hmem (mem_of_value hv) rfl
    rw [(Prod.mk.inj heq).2]

/-- A sum over a dictionary after an assignment. -/
theorem sum_put (f : ν → ℕ) (h : (d.map Prod.fst).Nodup) (hv : (k, v) ∈ d) :
    ((put d k w).map fun entry => f entry.2).sum + f v = (d.map fun entry => f entry.2).sum + f w := by
  rw [put, if_pos (List.mem_map_of_mem hv)]
  obtain ⟨pre, post, rfl⟩ := List.append_of_mem hv
  rw [List.map_append, List.map_cons, List.nodup_append, List.nodup_cons] at h
  have hkeep (list : List (κ × ν)) (hk : k ∉ list.map Prod.fst) :
      (list.map fun entry => if entry.1 = k then (k, w) else entry) = list := by
    refine (List.map_congr_left fun entry hentry => if_neg ?_).trans (List.map_id list)
    rintro rfl
    exact hk (List.mem_map_of_mem hentry)
  have hpre : k ∉ pre.map Prod.fst := fun hmem => h.2.2 k hmem k List.mem_cons_self rfl
  rw [List.map_append, List.map_cons, hkeep pre hpre, hkeep post h.2.1.1, if_pos rfl]
  simp only [List.map_append, List.map_cons, List.sum_append, List.sum_cons]
  omega

end SemantiST.Lib
