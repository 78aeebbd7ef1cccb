import SemantiST.Lib.CString
import SemantiST.Lib.Fold

/-!
# The records of a replayed text

`semantist_v3_execute` first distributes the lines of the text to two buffers, of the shared records
and of the frames.
-/

namespace SemantiST.Harness

open Lib

/-! ## The model -/

inductive Failure
  /-- The buffer check found too little room. -/
  | abort
  /-- A read or a write left its buffer. -/
  | outOfBounds
deriving DecidableEq

structure Buffers where
  shared : Text
  frames : Text
deriving DecidableEq

/-- `has_cycle`: digits and a dot before the first comma. -/
def hasCycle : Text → Bool
  | [] => false
  | c :: rest =>
    if c = ',' then false
    else if c = '.' then true
    else if !c.isDigit then false
    else hasCycle rest

/-- The line, a line break and a NUL at the end of the string in `target`. -/
def appendLine (length : ℕ) (target line : Text) : Except Failure Text :=
  (strlen target).elim (.error .outOfBounds) fun used =>
    if used + line.length + 2 > length + 1 then .error .abort
    else (store target used (line ++ ['\n', nul])).elim (.error .outOfBounds) .ok

def distribute (length : ℕ) (b : Buffers) (line : Text) : Except Failure Buffers :=
  if ',' ∉ line then .ok b
  else if hasCycle line then
    (appendLine length b.frames line).map fun frames => { b with frames := frames }
  else (appendLine length b.shared line).map fun shared => { b with shared := shared }

/-- The first loop of `semantist_v3_execute`, up to `semantist_init`. -/
def splitInput (sharedGarbage framesGarbage : ℕ → Char) (input : Text) : Except Failure Buffers :=
  (cString input).elim (.error .outOfBounds) fun data =>
    (strtok '\n' data).foldlM (distribute data.length)
      { shared := (malloc sharedGarbage (data.length + 1)).set 0 nul
        frames := (malloc framesGarbage (data.length + 1)).set 0 nul }

/-- `semantist_harness_execute` ends the input with a NUL; behind it the buffer has what earlier
inputs left there. -/
def harnessInput (data leftover : Text) : Text := data ++ nul :: leftover

/-! ## One line -/

def isShared (line : Text) : Bool := decide (',' ∈ line) && !hasCycle line

def isFrame (line : Text) : Bool := decide (',' ∈ line) && hasCycle line

variable {length : ℕ} {target text line shared frames : Text} {b : Buffers} {lines : List Text}

theorem appendLine_ok (h : Holds target text) (hlength : target.length = length + 1) (hline : nul ∉ line)
    (hroom : text.length + (line.length + 1) ≤ length) :
    ∃ target', appendLine length target line = .ok target' ∧ Holds target' (text ++ (line ++ ['\n'])) ∧
      target'.length = length + 1 := by
  have hnul : nul ∉ line ++ ['\n'] := by
    rw [List.mem_append]
    exact fun hmem => hmem.elim hline (by decide)
  obtain ⟨target', hstore, hholds, hsame⟩ := h.store hnul (by
    rw [List.length_append, List.length_singleton]
    omega)
  refine ⟨target', ?_, hholds, hsame.trans hlength⟩
  rw [List.append_assoc] at hstore
  rw [appendLine, h.strlen_eq, Option.elim_some, if_neg (by omega)]
  exact congrArg (Option.elim · _ _) hstore

theorem appendLine_abort (h : Holds target text) (hroom : length < text.length + (line.length + 1)) :
    appendLine length target line = .error .abort := by
  rw [appendLine, h.strlen_eq, Option.elim_some, if_pos (by omega)]

/-- Both buffers have `length + 1` characters and hold these records. -/
structure Filled (length : ℕ) (b : Buffers) (shared frames : Text) : Prop where
  shared : Holds b.shared shared
  frames : Holds b.frames frames
  length_shared : b.shared.length = length + 1
  length_frames : b.frames.length = length + 1

/-! ## All lines -/

/-- How many characters the records take, their line breaks included. -/
def size (lines : List Text) : ℕ := (lines.map fun line => line.length + 1).sum

@[simp]
theorem size_cons : size (line :: lines) = line.length + 1 + size lines := by
  rw [size, List.map_cons, List.sum_cons, size]

/-- What `distribute` does with a line: nothing, or it goes to one of the buffers. -/
theorem distribute_cases (length : ℕ) (line : Text) :
    (isShared line = false ∧ isFrame line = false ∧ ∀ b, distribute length b line = .ok b) ∨
    (isShared line = true ∧ isFrame line = false ∧ ∀ b : Buffers, distribute length b line =
      (appendLine length b.shared line).map fun shared => { b with shared := shared }) ∨
    (isShared line = false ∧ isFrame line = true ∧ ∀ b : Buffers, distribute length b line =
      (appendLine length b.frames line).map fun frames => { b with frames := frames }) := by
  unfold isShared isFrame distribute
  by_cases hcomma : ',' ∈ line
  · rw [decide_eq_true hcomma]
    cases hasCycle line with
    | false => exact .inr (.inl ⟨rfl, rfl, fun _ => if_neg (not_not_intro hcomma)⟩)
    | true => exact .inr (.inr ⟨rfl, rfl, fun _ => if_neg (not_not_intro hcomma)⟩)
  · rw [decide_eq_false hcomma]
    exact .inl ⟨rfl, rfl, fun _ => if_pos hcomma⟩

theorem Filled.shared_le (h : Filled length b shared frames) : shared.length ≤ length := by
  obtain ⟨rest, hrest, -⟩ := h.shared
  have hlength := h.length_shared
  rw [hrest, List.length_append, List.length_cons] at hlength
  omega

theorem Filled.frames_le (h : Filled length b shared frames) : frames.length ≤ length := by
  obtain ⟨rest, hrest, -⟩ := h.frames
  have hlength := h.length_frames
  rw [hrest, List.length_append, List.length_cons] at hlength
  omega

/-- **The lines are distributed where both buffers have room for theirs.** -/
theorem distribute_ok (h : Filled length b shared frames) (hlines : ∀ line ∈ lines, nul ∉ line)
    (hshared : shared.length + size (lines.filter isShared) ≤ length)
    (hframes : frames.length + size (lines.filter isFrame) ≤ length) :
    ∃ b', lines.foldlM (distribute length) b = .ok b' ∧
      Filled length b' (shared ++ unlines (lines.filter isShared)) (frames ++ unlines (lines.filter isFrame)) := by
  induction lines generalizing b shared frames with
  | nil =>
    refine ⟨b, rfl, ?_⟩
    rw [List.filter_nil, List.filter_nil, unlines_nil, List.append_nil, List.append_nil]
    exact h
  | cons line lines ih =>
    obtain ⟨hline, hlines⟩ := List.forall_mem_cons.1 hlines
    rcases distribute_cases length line with ⟨hs, hf, heq⟩ | ⟨hs, hf, heq⟩ | ⟨hs, hf, heq⟩
    · rw [List.filter_cons_of_neg (by rw [hs]; decide)] at hshared ⊢
      rw [List.filter_cons_of_neg (by rw [hf]; decide)] at hframes ⊢
      rw [List.foldlM_cons, heq]
      exact ih h hlines hshared hframes
    · rw [List.filter_cons_of_pos hs] at hshared ⊢
      rw [List.filter_cons_of_neg (by rw [hf]; decide)] at hframes ⊢
      rw [size_cons] at hshared
      obtain ⟨target, htarget, hholds, hlength⟩ := appendLine_ok h.shared h.length_shared hline (by omega)
      have hfilled : Filled length { b with shared := target } (shared ++ (line ++ ['\n'])) frames :=
        ⟨hholds, h.frames, hlength, h.length_frames⟩
      obtain ⟨b', hrest, hb'⟩ := ih hfilled hlines (by
        rw [List.length_append, List.length_append, List.length_singleton]
        omega) hframes
      refine ⟨b', ?_, ?_⟩
      · rw [List.foldlM_cons, heq, htarget]
        exact hrest
      · rwa [List.append_assoc, List.append_assoc, List.singleton_append, ← unlines_cons] at hb'
    · rw [List.filter_cons_of_neg (by rw [hs]; decide)] at hshared ⊢
      rw [List.filter_cons_of_pos hf] at hframes ⊢
      rw [size_cons] at hframes
      obtain ⟨target, htarget, hholds, hlength⟩ := appendLine_ok h.frames h.length_frames hline (by omega)
      have hfilled : Filled length { b with frames := target } shared (frames ++ (line ++ ['\n'])) :=
        ⟨h.shared, hholds, h.length_shared, hlength⟩
      obtain ⟨b', hrest, hb'⟩ := ih hfilled hlines hshared (by
        rw [List.length_append, List.length_append, List.length_singleton]
        omega)
      refine ⟨b', ?_, ?_⟩
      · rw [List.foldlM_cons, heq, htarget]
        exact hrest
      · rwa [List.append_assoc frames, List.append_assoc, List.singleton_append, ← unlines_cons] at hb'

/-- **Otherwise the buffer check aborts**, before anything is stored outside. -/
theorem distribute_abort (h : Filled length b shared frames) (hlines : ∀ line ∈ lines, nul ∉ line)
    (hroom : length < shared.length + size (lines.filter isShared) ∨
      length < frames.length + size (lines.filter isFrame)) :
    lines.foldlM (distribute length) b = .error .abort := by
  induction lines generalizing b shared frames with
  | nil =>
    have hs := h.shared_le
    have hf := h.frames_le
    have hempty : ∀ p : Text → Bool, size ([].filter p) = 0 := fun _ => rfl
    rw [hempty, hempty] at hroom
    omega
  | cons line lines ih =>
    obtain ⟨hline, hlines⟩ := List.forall_mem_cons.1 hlines
    rcases distribute_cases length line with ⟨hs, hf, heq⟩ | ⟨hs, hf, heq⟩ | ⟨hs, hf, heq⟩
    · rw [List.filter_cons_of_neg (by rw [hs]; decide), List.filter_cons_of_neg (by rw [hf]; decide)] at hroom
      rw [List.foldlM_cons, heq]
      exact ih h hlines hroom
    · rw [List.filter_cons_of_pos hs, List.filter_cons_of_neg (by rw [hf]; decide), size_cons] at hroom
      rw [List.foldlM_cons, heq]
      by_cases hfit : shared.length + (line.length + 1) ≤ length
      · obtain ⟨target, htarget, hholds, hlength⟩ := appendLine_ok h.shared h.length_shared hline hfit
        have hfilled : Filled length { b with shared := target } (shared ++ (line ++ ['\n'])) frames :=
          ⟨hholds, h.frames, hlength, h.length_frames⟩
        rw [htarget]
        apply ih hfilled hlines
        rw [List.length_append, List.length_append, List.length_singleton]
        omega
      · rw [appendLine_abort h.shared (by omega)]
        rfl
    · rw [List.filter_cons_of_neg (by rw [hs]; decide), List.filter_cons_of_pos hf, size_cons] at hroom
      rw [List.foldlM_cons, heq]
      by_cases hfit : frames.length + (line.length + 1) ≤ length
      · obtain ⟨target, htarget, hholds, hlength⟩ := appendLine_ok h.frames h.length_frames hline hfit
        have hfilled : Filled length { b with frames := target } shared (frames ++ (line ++ ['\n'])) :=
          ⟨h.shared, hholds, h.length_shared, hlength⟩
        rw [htarget]
        apply ih hfilled hlines
        rw [List.length_append, List.length_append, List.length_singleton]
        omega
      · rw [appendLine_abort h.frames (by omega)]
        rfl

/-! ## The whole text -/

variable {sharedGarbage framesGarbage : ℕ → Char} {data leftover : Text}

theorem filled_malloc (length : ℕ) :
    Filled length { shared := (malloc sharedGarbage (length + 1)).set 0 nul
                    frames := (malloc framesGarbage (length + 1)).set 0 nul } [] [] where
  shared := holds_set_zero (by rw [length_malloc]; omega)
  frames := holds_set_zero (by rw [length_malloc]; omega)
  length_shared := by rw [List.length_set, length_malloc]
  length_frames := by rw [List.length_set, length_malloc]

theorem splitInput_eq (hnul : nul ∉ data) :
    splitInput sharedGarbage framesGarbage (harnessInput data leftover) =
      (strtok '
' data).foldlM (distribute data.length)
        { shared := (malloc sharedGarbage (data.length + 1)).set 0 nul
          frames := (malloc framesGarbage (data.length + 1)).set 0 nul } := by
  have hholds : Holds (harnessInput data leftover) data := ⟨leftover, rfl, hnul⟩
  rw [splitInput, hholds.cString_eq, Option.elim_some]

/-- All lines of the text, empty ones included, are records of one kind. -/
def OneKind (data : Text) : Prop :=
  (∀ line ∈ data.splitOn '
', isShared line = true) ∨ ∀ line ∈ data.splitOn '
', isFrame line = true

instance (data : Text) : Decidable (OneKind data) := inferInstanceAs (Decidable (_ ∨ _))

/-- **The buffers fit precisely where the lines are not all records of one kind**; the records are
then in them, in order. -/
theorem splitInput_ok (hnul : nul ∉ data) (hkind : ¬ OneKind data) :
    ∃ b, splitInput sharedGarbage framesGarbage (harnessInput data leftover) = .ok b ∧
      cString b.shared = some (unlines ((strtok '
' data).filter isShared)) ∧
      cString b.frames = some (unlines ((strtok '
' data).filter isFrame)) := by
  have hkind := not_or.1 hkind
  rw [← length_lt_sum_tokens rfl, ← length_lt_sum_tokens rfl] at hkind
  obtain ⟨b, heq, hfilled⟩ := distribute_ok (filled_malloc data.length)
    (fun line hline => mt (mem_of_mem_strtok hline) hnul)
    (by rw [List.length_nil, Nat.zero_add]; exact Nat.not_lt.1 hkind.1)
    (by rw [List.length_nil, Nat.zero_add]; exact Nat.not_lt.1 hkind.2)
  exact ⟨b, (splitInput_eq hnul).trans heq, hfilled.shared.cString_eq, hfilled.frames.cString_eq⟩

theorem splitInput_abort (hnul : nul ∉ data) (hkind : OneKind data) :
    splitInput sharedGarbage framesGarbage (harnessInput data leftover) = .error .abort := by
  unfold OneKind at hkind
  rw [← length_lt_sum_tokens rfl, ← length_lt_sum_tokens rfl] at hkind
  rw [splitInput_eq hnul]
  apply distribute_abort (filled_malloc data.length) fun line hline => mt (mem_of_mem_strtok hline) hnul
  rwa [List.length_nil, Nat.zero_add, Nat.zero_add]

/-- **A replay stays in its buffers and passes their check unless its lines are all shared records
or all records of frames**, the last one without a line break. -/
theorem splitInput_safe_iff (sharedGarbage framesGarbage : ℕ → Char) (data leftover : Text) (hnul : nul ∉ data) :
    (splitInput sharedGarbage framesGarbage (harnessInput data leftover) ≠ .error .outOfBounds ∧
      splitInput sharedGarbage framesGarbage (harnessInput data leftover) ≠ .error .abort) ↔
    ¬ OneKind data := by
  constructor
  · intro h hkind
    exact h.2 (splitInput_abort hnul hkind)
  · intro hkind
    obtain ⟨b, heq, -⟩ := @splitInput_ok sharedGarbage framesGarbage _ leftover hnul hkind
    rw [heq]
    exact ⟨(fun h => by cases h), (fun h => by cases h)⟩

/-- Two records of a frame and a shared record, the last one without a line break. -/
theorem splitInput_safe_mixed :
    splitInput (fun _ => 'x') (fun _ => 'x') (harnessInput "0.X,1\n0.Y,2\nS,3".toList []) ≠ .error .outOfBounds ∧
      splitInput (fun _ => 'x') (fun _ => 'x') (harnessInput "0.X,1\n0.Y,2\nS,3".toList []) ≠ .error .abort := by
  apply (splitInput_safe_iff _ _ _ _ _).2
  · decide +kernel
  · decide +kernel

/-- One record without a line break does not fit its buffer. -/
theorem not_splitInput_safe_lastLine : ¬ ∀ (sharedGarbage framesGarbage : ℕ → Char) (data leftover : Text), nul ∉ data →
    splitInput sharedGarbage framesGarbage (harnessInput data leftover) ≠ .error .outOfBounds ∧
      splitInput sharedGarbage framesGarbage (harnessInput data leftover) ≠ .error .abort := by
  intro h
  have habort : splitInput (fun _ => 'x') (fun _ => 'x') (harnessInput "a,b".toList []) = .error .abort := by
    decide +kernel
  exact (h (fun _ => 'x') (fun _ => 'x') "a,b".toList [] (by decide +kernel)).2 habort

end SemantiST.Harness
