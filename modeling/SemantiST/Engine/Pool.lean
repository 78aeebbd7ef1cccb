import Mathlib.Data.List.InsertIdx
import SemantiST.Engine.Bundle
import SemantiST.Lib.Sort

/-!
# Retained prefixes

The prefixes a stage keeps: the root, the planned ones of its tasks and what it remembers of its
executions. When there is no more room, some executions displace others, but never a prefix that the
stage started with.
-/

namespace SemantiST.Engine

open Lib

/-! ## The model -/

/-- What prefixes come from. -/
inductive Source where
  | seed | planning | solver | relevantReach | fuzz | random | stateNovelty
  deriving DecidableEq

/-- Frames and a shared map, as the stage puts them together. -/
structure StageInput where
  frames : List Frame
  shared : Values
  deriving DecidableEq

structure V3Prefix where
  prefixId : Text
  parentId : Option Text
  taskId : Option Text
  input : StageInput
  path : Text
  distance : Float
  source : Source
  uses : ℕ

/-- What the stage reads of a task. -/
structure PlannedTask where
  taskId : Text
  seedPrefixes : List (List Values)

structure PrefixPool where
  prefixes : List V3Prefix
  retainedPrefixLimit : ℕ
  nextPrefixNumber : ℕ
  activeTaskId : Option Text := none

def rootId : Text := "p-00000000".toList

/-- `{:08}`. -/
def padded (n : ℕ) : Text := List.replicate (8 - (decimal n).length) '0' ++ decimal n

def rootPrefix : V3Prefix where
  prefixId := rootId
  parentId := none
  taskId := none
  input := ⟨[], ∅⟩
  path := []
  distance := 1 / 0
  source := .seed
  uses := 0

def plannedInput (frames : List Values) : StageInput where
  frames := frames.zipIdx.map fun (values, index) => ⟨index, values, none⟩
  shared := ∅

/-- A planned prefix without frames is left out, but counted. -/
def plannedPrefix (abi : TargetAbi) (index : ℕ) (taskId : Text) (frames : List Values) :
    Option V3Prefix :=
  let input := plannedInput frames
  if input.frames.isEmpty then none
  else some {
    prefixId := "p-plan-".toList ++ padded index
    parentId := some rootId
    taskId := some taskId
    path := serialize abi input.frames input.shared
    input := input
    distance := 0
    source := .planning
    uses := 0 }

/-- The number in the name of a file of frames. -/
def prefixNumber (fileName : Text) : Option ℕ := do
  let rest ← "p-".toList.isPrefixOf? fileName
  let number ← ".txt".toList.isSuffixOf? rest
  parseUnsigned u64Max number

namespace PrefixPool

def new (abi : TargetAbi) (tasks : List PlannedTask) (fileNames : List Text) : PrefixPool :=
  let planned := tasks.flatMap fun task => task.seedPrefixes.map fun frames => (task.taskId, frames)
  { prefixes := rootPrefix :: planned.zipIdx.filterMap fun ((taskId, frames), index) =>
      plannedPrefix abi index taskId frames
    retainedPrefixLimit := (planned.countP fun p => !p.2.isEmpty) + 513
    nextPrefixNumber := ((fileNames.filterMap prefixNumber).max?).getD 0 + 1 }

end PrefixPool

/-- The prefix is shorter, and its frames and its shared map are those the input starts with. -/
def V3Prefix.leadsTo (p : V3Prefix) (input : StageInput) : Bool :=
  p.input.frames.length < input.frames.length && p.input.shared = input.shared &&
    (p.input.frames.zip input.frames).all fun (left, right) => left = right

/-- A source that displaces a prefix when the pool is full. -/
def Source.displaces : Source → Bool
  | solver | relevantReach => true
  | _ => false

/-- A source of prefixes that are displaced. -/
def Source.evictable : Source → Bool
  | random | fuzz | stateNovelty => true
  | _ => false

namespace PrefixPool

variable (pool : PrefixPool)

/-- The prefixes that stay, when there is room for one more. -/
def makeRoom (source : Source) : Option (List V3Prefix) :=
  if pool.retainedPrefixLimit ≤ pool.prefixes.length then
    if !source.displaces then none
    else (pool.prefixes.findIdx? fun p => p.source.evictable).map pool.prefixes.eraseIdx
  else some pool.prefixes

def parentFor (input : StageInput) : Option Text :=
  ((maxByKey (fun p : V3Prefix => p.input.frames.length)
    (pool.prefixes.filter fun p => p.leadsTo input)).map V3Prefix.prefixId).or (some rootId)

def remember (input : StageInput) (path : Text) (distance : Float) (source : Source) :
    PrefixPool × Bool :=
  match pool.makeRoom source with
  | none => (pool, false)
  | some kept =>
    let pool := { pool with prefixes := kept }
    let prefixId := "p-".toList ++ decimal pool.nextPrefixNumber
    let pool := { pool with nextPrefixNumber := pool.nextPrefixNumber + 1 }
    let parentId := pool.parentFor input
    ({ pool with prefixes := pool.prefixes ++ [{
        prefixId := prefixId
        parentId := parentId
        taskId := pool.activeTaskId
        input := input
        path := path
        distance := distance
        source := source
        uses := 0 }] }, true)

/-- The end of `choose_prefix`. -/
def use (selected : ℕ) : PrefixPool :=
  { pool with prefixes := pool.prefixes.modify selected fun p => { p with uses := saturatingAdd p.uses 1 } }

end PrefixPool

/-! ## Runs -/

/-- What the stage does with its prefixes. -/
inductive PoolOp where
  | remember (input : StageInput) (path : Text) (distance : Float) (source : Source)
  | activate (task : Option Text)
  | use (selected : ℕ)

namespace PrefixPool

def apply (pool : PrefixPool) : PoolOp → PrefixPool
  | .remember input path distance source => (pool.remember input path distance source).1
  | .activate task => { pool with activeTaskId := task }
  | .use selected => pool.use selected

def run (pool : PrefixPool) (ops : List PoolOp) : PrefixPool := ops.foldl apply pool

end PrefixPool

/-! ## Ids -/

theorem readDigits_replicate (k : ℕ) (s : Text) :
    readDigits decDigit 10 0 (List.replicate k '0' ++ s) = readDigits decDigit 10 0 s := by
  induction k with
  | zero => rfl
  | succ k ih =>
    rw [List.replicate_succ, List.cons_append, readDigits]
    exact ih

/-- A padded number reads back. -/
theorem readNumber_padded (n : ℕ) : readNumber decDigit 10 (padded n) = some n := by
  have hne : padded n ≠ [] := List.append_ne_nil_of_right_ne_nil _ decimal_ne_nil
  have hread := readNumber_decimal n
  rw [readNumber, if_neg decimal_ne_nil] at hread
  rw [readNumber, if_neg hne, padded, readDigits_replicate, hread]

theorem padded_injective : Function.Injective padded := by
  intro m n h
  have hread := readNumber_padded m
  rw [h, readNumber_padded] at hread
  exact (Option.some.inj hread).symm

/-- The id of a remembered prefix. -/
def learnedId (n : ℕ) : Text := "p-".toList ++ decimal n

theorem learnedId_injective : Function.Injective learnedId := fun _ _ h =>
  decimal_injective (List.append_cancel_left h)

theorem rootId_ne_learnedId {n : ℕ} (hn : 0 < n) : rootId ≠ learnedId n := by
  intro h
  have hread := readNumber_decimal n
  change "p-".toList ++ "00000000".toList = "p-".toList ++ decimal n at h
  rw [← List.append_cancel_left h] at hread
  exact hn.ne (Option.some.inj hread)

theorem plannedId_ne_learnedId (index n : ℕ) : "p-plan-".toList ++ padded index ≠ learnedId n := by
  intro h
  have hp : 'p' ∈ decimal n := by
    change "p-".toList ++ ("plan-".toList ++ padded index) = "p-".toList ++ decimal n at h
    rw [← List.append_cancel_left h]
    exact List.mem_append_left _ (by decide)
  exact absurd (isDigit_of_mem_decimal hp) (by decide)

/-! ## Parents -/

/-- What a parent is: a shorter prefix of the frames with the same shared map. -/
structure V3Prefix.LeadsTo (p : V3Prefix) (input : StageInput) : Prop where
  shorter : p.input.frames.length < input.frames.length
  shared : p.input.shared = input.shared
  frames : p.input.frames <+: input.frames

theorem all_zip_iff {α : Type} [DecidableEq α] {l l' : List α} (h : l.length ≤ l'.length) :
    (l.zip l').all (fun (left, right) => left = right) = true ↔ l <+: l' := by
  induction l generalizing l' with
  | nil => exact iff_of_true rfl List.nil_prefix
  | cons a l ih =>
    cases l' with
    | nil => exact absurd h (Nat.not_succ_le_zero _)
    | cons b l' =>
      rw [List.zip_cons_cons, List.all_cons, Bool.and_eq_true, decide_eq_true_eq,
        ih (Nat.le_of_succ_le_succ h), List.cons_prefix_cons]

theorem leadsTo_iff {p : V3Prefix} {input : StageInput} : p.leadsTo input = true ↔ p.LeadsTo input := by
  unfold V3Prefix.leadsTo
  rw [Bool.and_eq_true, Bool.and_eq_true, decide_eq_true_eq, decide_eq_true_eq]
  constructor
  · rintro ⟨⟨hshorter, hshared⟩, hall⟩
    exact ⟨hshorter, hshared, (all_zip_iff hshorter.le).1 hall⟩
  · rintro ⟨hshorter, hshared, hframes⟩
    exact ⟨⟨hshorter, hshared⟩, (all_zip_iff hshorter.le).2 hframes⟩

namespace PrefixPool

variable {pool start : PrefixPool} {input : StageInput} {path : Text} {distance : Float}
  {source : Source} {kept : List V3Prefix}

/-- **A lookup yields the root or a retained prefix that leads to the input.** -/
theorem parentFor_cases (pool : PrefixPool) (input : StageInput) :
    pool.parentFor input = some rootId ∨
      ∃ p ∈ pool.prefixes, p.LeadsTo input ∧ pool.parentFor input = some p.prefixId := by
  unfold parentFor
  cases hbest : maxByKey (fun p : V3Prefix => p.input.frames.length)
      (pool.prefixes.filter fun p => p.leadsTo input) with
  | none => exact .inl rfl
  | some p =>
    have hmem := List.mem_filter.1 (mem_of_maxByKey hbest)
    exact .inr ⟨p, hmem.1, leadsTo_iff.1 hmem.2, rfl⟩

/-! ## One step -/

/-- Room is made by erasing a prefix that is evictable. -/
theorem makeRoom_eq_some (h : pool.makeRoom source = some kept) :
    (pool.prefixes.length < pool.retainedPrefixLimit ∧ kept = pool.prefixes) ∨
      ∃ i p, pool.prefixes[i]? = some p ∧ p.source.evictable = true ∧
        kept = pool.prefixes.eraseIdx i := by
  unfold makeRoom at h
  split at h
  · split at h
    · cases h
    · obtain ⟨i, hi, rfl⟩ := Option.map_eq_some_iff.1 h
      obtain ⟨hlt, hevictable, -⟩ := List.findIdx?_eq_some_iff_getElem.1 hi
      exact .inr ⟨i, _, List.getElem?_eq_getElem hlt, hevictable, rfl⟩
  · rename_i hroom
    exact .inl ⟨Nat.not_le.1 hroom, (Option.some.inj h).symm⟩

/-- **What is remembered.** -/
theorem remember_cases (pool : PrefixPool) (input : StageInput) (path : Text) (distance : Float)
    (source : Source) :
    pool.remember input path distance source = (pool, false) ∨
      ∃ kept child, pool.makeRoom source = some kept ∧
        child.prefixId = learnedId pool.nextPrefixNumber ∧ child.input = input ∧ child.uses = 0 ∧
        child.parentId = ({ pool with prefixes := kept } : PrefixPool).parentFor input ∧
        pool.remember input path distance source =
          ({ pool with prefixes := kept ++ [child], nextPrefixNumber := pool.nextPrefixNumber + 1 },
            true) := by
  unfold remember
  cases pool.makeRoom source with
  | none => exact .inl rfl
  | some kept => exact .inr ⟨kept, _, rfl, rfl, rfl, rfl, rfl, rfl⟩

end PrefixPool

/-- A prefix but for how often it was used. -/
def V3Prefix.core (p : V3Prefix) : V3Prefix := { p with uses := 0 }

namespace PrefixPool

variable {pool start : PrefixPool} {kept : List V3Prefix}

/-- Using a prefix changes nothing else of the pool. -/
theorem core_use (pool : PrefixPool) (selected : ℕ) :
    (pool.use selected).prefixes.map V3Prefix.core = pool.prefixes.map V3Prefix.core := by
  apply List.ext_getElem?
  intro i
  rw [List.getElem?_map, List.getElem?_map, use, List.getElem?_modify]
  cases pool.prefixes[i]? with
  | none => rfl
  | some p =>
    change some (V3Prefix.core (if selected = i then _ else p)) = some p.core
    split <;> rfl

/-! ## The invariant -/

/-- What the stage starts with. -/
structure Initial (start : PrefixPool) : Prop where
  kept : ∀ p ∈ start.prefixes, p.source.evictable = false
  unlearned : ∀ p ∈ start.prefixes, ∀ n, 0 < n → p.prefixId ≠ learnedId n
  rooted : ∀ p ∈ start.prefixes, ∀ id ∈ p.parentId, id = rootId
  distinct : (start.prefixes.map V3Prefix.prefixId).Nodup
  bounded : start.prefixes.length ≤ start.retainedPrefixLimit
  numbered : 0 < start.nextPrefixNumber

/-- The pool is what the stage started with and behind it what was learned. -/
structure Retains (start pool : PrefixPool) : Prop where
  limit : pool.retainedPrefixLimit = start.retainedPrefixLimit
  bounded : pool.prefixes.length ≤ pool.retainedPrefixLimit
  numbered : 0 < pool.nextPrefixNumber
  learned : ∃ rest, pool.prefixes.map V3Prefix.core = start.prefixes.map V3Prefix.core ++ rest ∧
    ∀ p ∈ rest, ∃ n < pool.nextPrefixNumber, 0 < n ∧ p.prefixId = learnedId n
  distinct : (pool.prefixes.map V3Prefix.prefixId).Nodup

theorem ids_eq (prefixes : List V3Prefix) : prefixes.map V3Prefix.prefixId =
    (prefixes.map V3Prefix.core).map V3Prefix.prefixId := by
  rw [List.map_map]
  rfl

theorem Initial.retains (h : start.Initial) : Retains start start where
  limit := rfl
  bounded := h.bounded
  numbered := h.numbered
  learned := ⟨[], (List.append_nil _).symm, List.forall_mem_nil _⟩
  distinct := h.distinct

theorem Retains.use (h : Retains start pool) (selected : ℕ) : Retains start (pool.use selected) where
  limit := h.limit
  bounded := by
    have hlength := congrArg List.length (core_use pool selected)
    rw [List.length_map, List.length_map] at hlength
    rw [hlength]
    exact h.bounded
  numbered := h.numbered
  learned := by
    rw [core_use]
    exact h.learned
  distinct := by
    rw [ids_eq, core_use, ← ids_eq]
    exact h.distinct

/-- Making room takes none of the prefixes that the stage started with. -/
theorem Retains.makeRoom (h : Retains start pool) (hstart : start.Initial) {source : Source}
    (hkept : pool.makeRoom source = some kept) :
    kept.Sublist pool.prefixes ∧ kept.length < pool.retainedPrefixLimit ∧
      ∃ rest, kept.map V3Prefix.core = start.prefixes.map V3Prefix.core ++ rest ∧
        ∀ p ∈ rest, ∃ n < pool.nextPrefixNumber, 0 < n ∧ p.prefixId = learnedId n := by
  obtain ⟨rest, hrest, hlearned⟩ := h.learned
  obtain ⟨hroom, rfl⟩ | ⟨i, p, hi, hevictable, rfl⟩ := makeRoom_eq_some hkept
  · exact ⟨List.Sublist.refl _, hroom, rest, hrest, hlearned⟩
  · have hlt : i < pool.prefixes.length := (List.getElem?_eq_some_iff.1 hi).1
    have hbounded := h.bounded
    -- the erased prefix is not among the first ones, for those are not evictable
    have hbehind : (start.prefixes.map V3Prefix.core).length ≤ i := by
      by_contra hfront
      have hat : (pool.prefixes.map V3Prefix.core)[i]? = some p.core := by
        rw [List.getElem?_map, hi]
        rfl
      rw [hrest, List.getElem?_append_left (Nat.not_le.1 hfront)] at hat
      obtain ⟨q, hq, hcore⟩ := List.mem_map.1 (List.mem_of_getElem? hat)
      have hsource : q.core.source = p.core.source := congrArg V3Prefix.source hcore
      have hprotected : q.core.source.evictable = false := hstart.kept q hq
      rw [hsource] at hprotected
      exact absurd hevictable (Bool.eq_false_iff.1 hprotected)
    refine ⟨List.eraseIdx_sublist _ _, ?_,
      rest.eraseIdx (i - (start.prefixes.map V3Prefix.core).length), ?_, fun q hq =>
      hlearned q (List.mem_of_mem_eraseIdx hq)⟩
    · rw [List.length_eraseIdx_of_lt hlt]
      omega
    · rw [← List.eraseIdx_map, hrest, List.eraseIdx_append_of_length_le hbehind]

theorem Retains.remember (h : Retains start pool) (hstart : start.Initial) (input : StageInput)
    (path : Text) (distance : Float) (source : Source) :
    Retains start (pool.remember input path distance source).1 := by
  obtain heq | ⟨kept, child, hkept, hid, -, huses, -, heq⟩ :=
    remember_cases pool input path distance source
  · rw [heq]
    exact h
  rw [heq]
  obtain ⟨hsub, hroom, rest, hrest, hlearned⟩ := h.makeRoom hstart hkept
  have hcore : child.core = child := by
    unfold V3Prefix.core
    rw [← huses]
  exact {
    limit := h.limit
    bounded := by
      rw [List.length_append, List.length_singleton]
      exact hroom
    numbered := Nat.succ_pos _
    learned := by
      refine ⟨rest ++ [child], ?_, fun p hp => ?_⟩
      · rw [List.map_append, hrest, List.map_singleton, hcore, List.append_assoc]
      · obtain hp | hp := List.mem_append.1 hp
        · obtain ⟨n, hn, hpos, hp⟩ := hlearned p hp
          exact ⟨n, Nat.lt_succ_of_lt hn, hpos, hp⟩
        · rw [List.mem_singleton.1 hp]
          exact ⟨_, Nat.lt_succ_self _, h.numbered, hid⟩
    distinct := by
      rw [List.map_append, List.map_singleton, List.nodup_append]
      refine ⟨h.distinct.sublist (hsub.map _), List.nodup_singleton _, ?_⟩
      intro id hmem id' hid'
      rw [List.mem_singleton.1 hid', hid]
      rw [ids_eq, hrest, List.map_append, List.mem_append] at hmem
      obtain hmem | hmem := hmem
      · rw [← ids_eq] at hmem
        obtain ⟨p, hp, rfl⟩ := List.mem_map.1 hmem
        exact hstart.unlearned p hp _ h.numbered
      · obtain ⟨p, hp, rfl⟩ := List.mem_map.1 hmem
        obtain ⟨n, hn, -, hp⟩ := hlearned p hp
        rw [hp]
        exact fun heq => hn.ne (learnedId_injective heq) }

/-- **Every step retains what the stage started with.** -/
theorem Retains.apply (h : Retains start pool) (hstart : start.Initial) (op : PoolOp) :
    Retains start (pool.apply op) := by
  cases op with
  | remember input path distance source => exact h.remember hstart input path distance source
  | activate task => exact ⟨h.limit, h.bounded, h.numbered, h.learned, h.distinct⟩
  | use selected => exact h.use selected

theorem Initial.run (hstart : start.Initial) (ops : List PoolOp) : Retains start (start.run ops) :=
  List.foldlRecOn (motive := Retains start) ops apply hstart.retains fun _ h op _ => h.apply hstart op

theorem run_concat (pool : PrefixPool) (ops : List PoolOp) (op : PoolOp) :
    pool.run (ops ++ [op]) = (pool.run ops).apply op := List.foldl_concat _ _ _ _

/-! ## Recorded parents -/

/-- The step that remembers `child`, and the parent that is chosen for it. -/
structure Admits (before : PrefixPool) (op : PoolOp) (child : V3Prefix) : Prop where
  remembered : ∃ path distance source, op = .remember child.input path distance source
  last : (before.apply op).prefixes.getLast?.map V3Prefix.core = some child.core
  fresh : child.prefixId ∉ before.prefixes.map V3Prefix.prefixId
  parent : child.parentId = some rootId ∨ ∃ p ∈ before.prefixes, p ∈ (before.apply op).prefixes ∧
    p.LeadsTo child.input ∧ child.parentId = some p.prefixId

theorem Admits.congr {op : PoolOp} {child child' : V3Prefix} (h : pool.Admits op child)
    (hcore : child.core = child'.core) : pool.Admits op child' := by
  have hinput : child.core.input = child'.core.input := congrArg V3Prefix.input hcore
  have hid : child.core.prefixId = child'.core.prefixId := congrArg V3Prefix.prefixId hcore
  have hparent : child.core.parentId = child'.core.parentId := congrArg V3Prefix.parentId hcore
  change child.input = child'.input at hinput
  change child.prefixId = child'.prefixId at hid
  change child.parentId = child'.parentId at hparent
  exact {
    remembered := hinput ▸ h.remembered
    last := hcore ▸ h.last
    fresh := hid ▸ h.fresh
    parent := hinput ▸ hparent ▸ h.parent }

/-- No prefix has the id that is next. -/
theorem Retains.learnedId_not_mem (h : Retains start pool) (hstart : start.Initial) :
    learnedId pool.nextPrefixNumber ∉ pool.prefixes.map V3Prefix.prefixId := by
  obtain ⟨rest, hrest, hlearned⟩ := h.learned
  rw [ids_eq, hrest, List.map_append, List.mem_append, ← ids_eq]
  rintro (hmem | hmem)
  · obtain ⟨p, hp, hid⟩ := List.mem_map.1 hmem
    exact hstart.unlearned p hp _ h.numbered hid
  · obtain ⟨p, hp, hid⟩ := List.mem_map.1 hmem
    obtain ⟨n, hn, -, hlearned⟩ := hlearned p hp
    exact hn.ne (learnedId_injective (hlearned.symm.trans hid))

/-- **After a step every prefix was there before or is the one that was remembered.** -/
theorem Retains.mem_apply (h : Retains start pool) (hstart : start.Initial) {op : PoolOp}
    {p : V3Prefix} (hp : p ∈ (pool.apply op).prefixes) :
    p.core ∈ pool.prefixes.map V3Prefix.core ∨ pool.Admits op p := by
  cases op with
  | activate task => exact .inl (List.mem_map_of_mem hp)
  | use selected =>
    have hcore := List.mem_map_of_mem (f := V3Prefix.core) hp
    rw [PrefixPool.apply, core_use] at hcore
    exact .inl hcore
  | remember input path distance source =>
    obtain heq | ⟨kept, child, hkept, hid, rfl, -, hparent, heq⟩ :=
      remember_cases pool input path distance source
    · rw [PrefixPool.apply, heq] at hp
      exact .inl (List.mem_map_of_mem hp)
    have happly : pool.apply (.remember child.input path distance source) =
        { pool with prefixes := kept ++ [child], nextPrefixNumber := pool.nextPrefixNumber + 1 } := by
      rw [PrefixPool.apply, heq]
    have hsub := (h.makeRoom hstart hkept).1
    rw [happly] at hp
    obtain hp | hp := List.mem_append.1 hp
    · exact .inl (List.mem_map_of_mem (hsub.subset hp))
    obtain rfl := List.mem_singleton.1 hp
    refine .inr ⟨⟨path, distance, source, rfl⟩, ?_, ?_, ?_⟩
    · rw [happly, List.getLast?_concat]
      rfl
    · rw [hid]
      exact h.learnedId_not_mem hstart
    · obtain hroot | ⟨q, hq, hleads, hq'⟩ :=
        parentFor_cases { pool with prefixes := kept } p.input
      · exact .inl (hparent.trans hroot)
      · rw [happly]
        exact .inr ⟨q, hsub.subset hq, List.mem_append_left _ hq, hleads, hparent.trans hq'⟩

/-- Every prefix of a run is one that the stage started with, or some step has remembered it. -/
theorem Initial.recorded (hstart : start.Initial) (ops : List PoolOp) :
    ∀ p ∈ (start.run ops).prefixes, p.core ∈ start.prefixes.map V3Prefix.core ∨
      ∃ front op back, ops = front ++ op :: back ∧ (start.run front).Admits op p := by
  induction ops using List.reverseRecOn with
  | nil => exact fun p hp => .inl (List.mem_map_of_mem hp)
  | append_singleton ops op ih =>
    intro p hp
    rw [run_concat] at hp
    obtain hp | hadmits := (hstart.run ops).mem_apply hstart hp
    · obtain ⟨q, hq, hcore⟩ := List.mem_map.1 hp
      obtain hinitial | ⟨front, op', back, rfl, hadmits⟩ := ih q hq
      · rw [hcore] at hinitial
        exact .inl hinitial
      · refine .inr ⟨front, op', back ++ [op], ?_, hadmits.congr hcore⟩
        rw [List.append_assoc, List.cons_append]
    · exact .inr ⟨ops, op, [], rfl, hadmits⟩

/-! ## The stage -/

variable (abi : TargetAbi) (tasks : List PlannedTask) (fileNames : List Text)

theorem mem_new {p : V3Prefix} (hp : p ∈ (new abi tasks fileNames).prefixes) :
    p = rootPrefix ∨ ∃ index taskId frames, plannedPrefix abi index taskId frames = some p := by
  obtain hp | hp := List.mem_cons.1 hp
  · exact .inl hp
  · obtain ⟨entry, -, hplanned⟩ := List.mem_filterMap.1 hp
    exact .inr ⟨_, _, _, hplanned⟩

theorem plannedPrefix_eq_some {index : ℕ} {taskId : Text} {frames : List Values} {p : V3Prefix}
    (h : plannedPrefix abi index taskId frames = some p) :
    p.prefixId = "p-plan-".toList ++ padded index ∧ p.parentId = some rootId ∧ p.source = .planning ∧
      frames ≠ [] := by
  unfold plannedPrefix at h
  dsimp only at h
  split at h
  · cases h
  · rename_i hne
    obtain rfl := Option.some.inj h
    refine ⟨rfl, rfl, rfl, ?_⟩
    rintro rfl
    exact hne rfl

theorem isSome_plannedPrefix (index : ℕ) (taskId : Text) (frames : List Values) :
    (plannedPrefix abi index taskId frames).isSome = !frames.isEmpty := by
  cases frames <;> rfl

theorem initial_new : (new abi tasks fileNames).Initial where
  kept p hp := by
    obtain rfl | ⟨index, taskId, frames, hplanned⟩ := mem_new abi tasks fileNames hp
    · rfl
    · rw [(plannedPrefix_eq_some abi hplanned).2.2.1]
      rfl
  unlearned p hp n hn := by
    obtain rfl | ⟨index, taskId, frames, hplanned⟩ := mem_new abi tasks fileNames hp
    · exact rootId_ne_learnedId hn
    · rw [(plannedPrefix_eq_some abi hplanned).1]
      exact plannedId_ne_learnedId index n
  rooted p hp id hid := by
    obtain rfl | ⟨index, taskId, frames, hplanned⟩ := mem_new abi tasks fileNames hp
    · cases hid
    · rw [(plannedPrefix_eq_some abi hplanned).2.1] at hid
      exact (Option.some.inj hid).symm
  distinct := by
    rw [new, List.map_cons, List.nodup_cons]
    constructor
    · intro hroot
      obtain ⟨p, hp, hid⟩ := List.mem_map.1 hroot
      obtain ⟨entry, -, hplanned⟩ := List.mem_filterMap.1 hp
      rw [(plannedPrefix_eq_some abi hplanned).1] at hid
      change "p-".toList ++ ('p' :: ("lan-".toList ++ padded _)) = "p-".toList ++ "00000000".toList at hid
      have hhead := (List.cons.inj (List.append_cancel_left hid)).1
      exact absurd hhead (by decide)
    · -- the ids of planned prefixes have their indices
      rw [List.Nodup, List.pairwise_map, List.pairwise_filterMap]
      have hindices : ∀ {α : Type} (l : List α), (l.zipIdx.map Prod.snd).Nodup := fun l => by
        rw [List.zipIdx_map_snd]
        exact List.nodup_range'
      refine (List.pairwise_map.1 (hindices _)).imp ?_
      intro a b hne p hp q hq hid
      rw [(plannedPrefix_eq_some abi hp).1, (plannedPrefix_eq_some abi hq).1] at hid
      exact hne (padded_injective (List.append_cancel_left hid))
  bounded := by
    simp only [new, List.length_cons, List.length_filterMap_eq_countP, isSome_plannedPrefix]
    generalize (tasks.flatMap fun task => task.seedPrefixes.map fun frames => (task.taskId, frames)) =
      planned
    have hcount : planned.zipIdx.countP (fun x => !x.1.2.isEmpty) =
        planned.countP fun p => !p.2.isEmpty := by
      conv_rhs => rw [← List.zipIdx_map_fst 0 planned, List.countP_map]
      rfl
    rw [hcount]
    omega
  numbered := Nat.succ_pos _

/-- **In every run the pool keeps to its limit, the root and the planned prefixes stay, no two prefixes
share an id, and every parent that is looked up or recorded is the root or a retained prefix that leads
to its child.** -/
theorem run_retains (ops : List PoolOp) :
    let start := new abi tasks fileNames
    let pool := start.run ops
    (pool.prefixes.length ≤ pool.retainedPrefixLimit ∧
      pool.retainedPrefixLimit = start.retainedPrefixLimit) ∧
    (∀ p ∈ start.prefixes, ∃ q ∈ pool.prefixes, q.core = p.core) ∧
    (pool.prefixes.map V3Prefix.prefixId).Nodup ∧
    (∀ input, pool.parentFor input = some rootId ∨
      ∃ p ∈ pool.prefixes, p.LeadsTo input ∧ pool.parentFor input = some p.prefixId) ∧
    ∀ p ∈ pool.prefixes, (∀ id ∈ p.parentId, id = rootId) ∨
      ∃ front op back, ops = front ++ op :: back ∧ (start.run front).Admits op p := by
  intro start pool
  have hstart := initial_new abi tasks fileNames
  have h := hstart.run ops
  obtain ⟨rest, hrest, -⟩ := h.learned
  refine ⟨⟨h.bounded, h.limit⟩, ?_, h.distinct, parentFor_cases pool, ?_⟩
  · intro p hp
    have hmem : p.core ∈ pool.prefixes.map V3Prefix.core := by
      rw [hrest]
      exact List.mem_append_left _ (List.mem_map_of_mem hp)
    exact List.mem_map.1 hmem
  · intro p hp
    obtain hinitial | hadmits := hstart.recorded ops p hp
    · obtain ⟨q, hq, hcore⟩ := List.mem_map.1 hinitial
      have hparent : q.core.parentId = p.core.parentId := congrArg V3Prefix.parentId hcore
      refine .inl fun id hid => hstart.rooted q hq id ?_
      exact Eq.trans hparent hid
    · exact .inr hadmits

end PrefixPool

end SemantiST.Engine
