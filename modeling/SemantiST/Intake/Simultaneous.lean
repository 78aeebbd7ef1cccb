import SemantiST.Intake.Normalize
import SemantiST.Intake.Tracking
import SemantiST.Lib.Fold
import SemantiST.Lib.Spans

/-!
# The edits of a round

The edits that `_non_overlapping` accepts are made one after the other, from the end of each file backwards.
They stand apart, and so the text becomes the one in which all of them are made at once, in the coordinates of
the text that the round starts from (`round_simultaneous`).
-/

namespace SemantiST.Intake

open Lib EditableSource

/-! ## One edit -/

/-- The part of a text whose coordinates an edit changes. -/
def Edit.range : Edit → ℕ × ℕ
  | .replace start stop _ _ => (start, stop)
  | .move start stop destination _ => (min start destination, max stop destination)

/-- An edit as replacements of spans, from the first to the last; a move takes a span out and puts it in elsewhere. -/
def Edit.changes (text : Text) : Edit → List (Replacement Char)
  | .replace start stop replacement _ => [⟨start, stop, replacement⟩]
  | .move start stop destination _ =>
    if start < stop then
      if destination ≤ start then [⟨destination, destination, slice start stop text⟩, ⟨start, stop, []⟩]
      else [⟨start, stop, []⟩, ⟨destination, destination, slice start stop text⟩]
    else []

/-- The spans are replaced from the last to the first. -/
def replaceBackwards (spans : List (Replacement Char)) (text : Text) : Text :=
  spans.foldr (fun span text => replaceSpan span.start span.stop span.new text) text

section One

variable {edit : Edit} {text now : Text}

theorem range_le (hrange : edit.InRange text.length) : edit.range.1 ≤ edit.range.2 ∧ edit.range.2 ≤ text.length := by
  cases edit with
  | replace => exact hrange
  | move start stop destination rule =>
    obtain ⟨hle, hstop, hdestination, -⟩ := hrange
    dsimp only [Edit.range]
    omega

/-- The replacements of an edit stand in its range, one after the other. -/
theorem changes_spec {length : ℕ} (hrange : edit.InRange length) (text : Text) :
    (∀ span ∈ edit.changes text, edit.range.1 ≤ span.start ∧ span.start ≤ span.stop ∧ span.stop ≤ edit.range.2) ∧
      (edit.changes text).Pairwise fun span span' => span.stop ≤ span'.start ∧ span.Apart span' := by
  cases edit with
  | replace start stop replacement rule =>
    refine ⟨fun span hspan => ?_, List.pairwise_singleton _ _⟩
    rw [List.mem_singleton.1 hspan]
    exact ⟨Nat.le_refl _, hrange.1, Nat.le_refl _⟩
  | move start stop destination rule =>
    obtain ⟨hle, hstop, hdestination, hout⟩ := hrange
    dsimp only [Edit.changes, Edit.range]
    split
    · split
      · constructor
        · simp only [List.forall_mem_cons, List.not_mem_nil, false_imp_iff, implies_true, and_true]
          omega
        · rw [List.pairwise_pair]
          dsimp only [Replacement.Apart]
          omega
      · constructor
        · simp only [List.forall_mem_cons, List.not_mem_nil, false_imp_iff, implies_true, and_true]
          omega
        · rw [List.pairwise_pair]
          dsimp only [Replacement.Apart]
          omega
    · exact ⟨(fun span hspan => by cases hspan), .nil⟩

theorem moveSpan_empty (start destination : ℕ) (l : Text) : moveSpan start start destination l = l := by
  have hnil : slice start start l = [] := by rw [slice, List.drop_take, Nat.sub_self, List.take_zero]
  rw [moveSpan, hnil, List.append_nil, List.take_append_drop, List.take_append_drop]

/-- What an edit does depends on the text up to the end of its range. -/
theorem applyText_eq (hrange : edit.InRange text.length) (hsame : now.take edit.range.2 = text.take edit.range.2) :
    edit.applyText now = replaceBackwards (edit.changes text) now ∧
      (edit.applyText now).take edit.range.1 = text.take edit.range.1 := by
  have htake (n : ℕ) (hn : n ≤ edit.range.2) : now.take n = text.take n := by
    have h := congrArg (List.take n) hsame
    rwa [List.take_take, List.take_take, Nat.min_eq_left hn] at h
  have hlength : edit.range.2 ≤ now.length := by
    have h := congrArg List.length hsame
    have := (range_le hrange).2
    rw [List.length_take, List.length_take] at h
    omega
  cases edit with
  | replace start stop replacement rule =>
    refine ⟨rfl, ?_⟩
    have hstart : start ≤ (now.take start).length := by
      rw [List.length_take]
      have := hrange.1
      dsimp only [Edit.range] at hlength
      omega
    dsimp only [Edit.applyText, Edit.range, replaceSpan]
    rw [List.append_assoc, List.take_append_of_le_length hstart, List.take_take, Nat.min_self]
    exact htake start hrange.1
  | move start stop destination rule =>
    obtain ⟨hle, hstop, hdestination, hout⟩ := hrange
    dsimp only [Edit.range] at hlength htake hsame ⊢
    have hslice : slice start stop now = slice start stop text := by
      rw [slice, slice, htake stop (by omega)]
    dsimp only [Edit.applyText, Edit.changes]
    split
    · split
      · rename_i hbefore
        constructor
        · dsimp only [replaceBackwards, List.foldr]
          rw [moveSpan, ← hslice, replaceSpan, replaceSpan, if_pos hbefore, List.append_nil]
        · rw [moveSpan_before hbefore (by omega), Nat.min_eq_right hbefore, List.append_assoc,
            List.take_append_of_le_length (by rw [List.length_take]; omega), List.take_take, Nat.min_self]
          exact htake destination (by omega)
      · rename_i hafter
        constructor
        · dsimp only [replaceBackwards, List.foldr]
          rw [moveSpan_after hle (by omega) (by omega) (by omega), ← hslice, replaceSpan, replaceSpan, List.append_nil,
            List.take_append_of_le_length (by simp; omega), List.append_assoc (now.take destination),
            List.take_append_of_le_length (by rw [List.length_take]; omega), List.take_take,
            Nat.min_eq_left (by omega), List.drop_append_of_le_length (by rw [List.length_take]; omega), slice]
          simp only [List.append_assoc]
        · rw [moveSpan_after hle (by omega) (by omega) (by omega), Nat.min_eq_left (by omega), List.append_assoc,
            List.append_assoc, List.take_append_of_le_length (by rw [List.length_take]; omega), List.take_take,
            Nat.min_self]
          exact htake start (by omega)
    · rename_i hempty
      have heq : start = stop := by omega
      subst heq
      rw [moveSpan_empty]
      exact ⟨rfl, htake _ (by omega)⟩

/-- An edit is in range where the text up to the end of its range is the same. -/
theorem inRange_of_take (hrange : edit.InRange text.length) (hsame : now.take edit.range.2 = text.take edit.range.2) :
    edit.InRange now.length := by
  have h := congrArg List.length hsame
  have hbound := (range_le hrange).2
  rw [List.length_take, List.length_take] at h
  cases edit with
  | replace start stop replacement rule =>
    dsimp only [Edit.range] at h hbound
    exact ⟨hrange.1, by omega⟩
  | move start stop destination rule =>
    obtain ⟨hle, hstop, hdestination, hout⟩ := hrange
    dsimp only [Edit.range] at h hbound
    exact ⟨hle, by omega, by omega, hout⟩

end One

/-! ## From the end backwards -/

/-- An edit stands before another one, and no two of their replacements are put at one place. -/
def Edit.Before (edit edit' : Edit) : Prop :=
  edit.range.2 ≤ edit'.range.1 ∧
    ∀ text, ∀ span ∈ edit.changes text, ∀ span' ∈ edit'.changes text, span.Apart span'

section Many

variable {edits : List Edit} {original text : Text} {source : EditableSource} {tracked : Tracked}

/-- **From the last edit to the first**, each does what it would do to the text before them all. -/
theorem foldr_applyText (hrange : ∀ edit ∈ edits, edit.InRange text.length) (hbefore : edits.Pairwise Edit.Before) :
    edits.foldr Edit.applyText text = replaceBackwards (edits.flatMap (Edit.changes text)) text ∧
      ∀ k, (∀ edit ∈ edits, k ≤ edit.range.1) → (edits.foldr Edit.applyText text).take k = text.take k := by
  induction edits with
  | nil => exact ⟨rfl, fun _ _ => rfl⟩
  | cons edit edits ih =>
    obtain ⟨hfirst, hrest⟩ := List.pairwise_cons.1 hbefore
    obtain ⟨hfold, htake⟩ := ih (fun edit' hedit => hrange edit' (List.mem_cons_of_mem _ hedit)) hrest
    obtain ⟨happly, hkeep⟩ := applyText_eq (hrange edit List.mem_cons_self)
      (htake edit.range.2 fun edit' hedit => (hfirst edit' hedit).1)
    refine ⟨?_, fun k hk => ?_⟩
    · rw [List.foldr_cons, happly, hfold, List.flatMap_cons, replaceBackwards, replaceBackwards, replaceBackwards,
        List.foldr_append]
    · have hle := hk edit List.mem_cons_self
      have h := congrArg (List.take k) hkeep
      rwa [List.take_take, List.take_take, Nat.min_eq_left hle] at h

/-- Spans that are replaced from the last to the first are replaced at once. -/
theorem replaceBackwards_eq {spans : List (Replacement Char)} (h : Ascending 0 text.length spans) :
    replaceBackwards spans text = together spans 0 text := by
  have hreplace := @foldr_replaceSpan _ spans [] text (by rw [List.length_nil, Nat.zero_add]; exact h)
  exact Eq.trans hreplace (@substitute_eq_together _ spans 0 text (by rwa [Nat.zero_add]))

/-- The edits of a source succeed, from the last to the first. -/
theorem applyAll_reverse (h : Faithful original source tracked) (hrange : ∀ edit ∈ edits, edit.InRange source.text.length)
    (hbefore : edits.Pairwise Edit.Before) :
    ∃ source' tracked', applyAll source edits.reverse = .ok source' ∧ Faithful original source' tracked' ∧
      source'.text = edits.foldr Edit.applyText source.text := by
  induction edits with
  | nil => exact ⟨source, tracked, rfl, h, rfl⟩
  | cons edit edits ih =>
    obtain ⟨hfirst, hrest⟩ := List.pairwise_cons.1 hbefore
    have hrange' : ∀ edit ∈ edits, edit.InRange source.text.length :=
      fun edit' hedit => hrange edit' (List.mem_cons_of_mem _ hedit)
    obtain ⟨next, trackedNext, happly, hnext, htext⟩ := ih hrange' hrest
    have hsame : next.text.take edit.range.2 = source.text.take edit.range.2 := by
      rw [htext]
      exact (foldr_applyText hrange' hrest).2 _ fun edit' hedit => (hfirst edit' hedit).1
    obtain ⟨source', hedit, hfaithful⟩ := hnext.apply (inRange_of_take (hrange edit List.mem_cons_self) hsame)
    refine ⟨source', _, ?_, hfaithful, ?_⟩
    · rw [List.reverse_cons, applyAll, List.foldlM_append]
      change (applyAll source edits.reverse >>= fun next => [edit].foldlM EditableSource.apply next) = .ok source'
      rw [happly]
      change (next.apply edit >>= fun source' => pure source') = .ok source'
      rw [hedit]
      rfl
    · rw [hfaithful.text_eq, track_fst, ← hnext.text_eq, htext, List.foldr_cons]

/-- The replacements of edits that stand one before the other. -/
theorem ascending_changes (hrange : ∀ edit ∈ edits, edit.InRange text.length) (hbefore : edits.Pairwise Edit.Before) :
    Ascending 0 text.length (edits.flatMap (Edit.changes text)) ∧
      (edits.flatMap (Edit.changes text)).Pairwise Replacement.Apart := by
  have hspec {span : Replacement Char} (hspan : span ∈ edits.flatMap (Edit.changes text)) :
      ∃ edit ∈ edits, edit.range.1 ≤ span.start ∧ span.start ≤ span.stop ∧ span.stop ≤ edit.range.2 := by
    obtain ⟨edit, hedit, hspan⟩ := List.mem_flatMap.1 hspan
    exact ⟨edit, hedit, (changes_spec (hrange edit hedit) text).1 span hspan⟩
  refine ⟨⟨?_, ?_, ?_⟩, ?_⟩
  · rw [List.pairwise_flatMap]
    refine ⟨fun edit hedit => (changes_spec (hrange edit hedit) text).2.imp And.left, hbefore.imp_of_mem ?_⟩
    intro edit edit' hedit hedit' hboth span hspan span' hspan'
    have := (changes_spec (hrange edit hedit) text).1 span hspan
    have := (changes_spec (hrange edit' hedit') text).1 span' hspan'
    have := hboth.1
    omega
  · intro span hspan
    obtain ⟨edit, hedit, -, hle, -⟩ := hspec hspan
    exact hle
  · intro span hspan
    obtain ⟨edit, hedit, -, -, hstop⟩ := hspec hspan
    exact ⟨Nat.zero_le _, Nat.le_trans hstop (range_le (hrange edit hedit)).2⟩
  · rw [List.pairwise_flatMap]
    refine ⟨fun edit hedit => (changes_spec (hrange edit hedit) text).2.imp And.right, hbefore.imp ?_⟩
    exact fun hboth => hboth.2 text

end Many

/-! ## The edits of a file -/

/-- The edit is a span of a text, and a destination lies in the text. -/
structure FileEdit.InText (edit : FileEdit) (length : ℕ) : Prop where
  le : edit.start ≤ edit.stop
  stop_le : edit.stop ≤ length
  destination_le : ∀ destination, edit.moveTo = some destination → destination ≤ length

/-- The edit moves a span into itself, which is an error. -/
def FileEdit.IntoItself (edit : FileEdit) : Prop :=
  ∃ destination, edit.moveTo = some destination ∧ edit.start < destination ∧ destination < edit.stop

structure FileEdit.InRange (edit : FileEdit) (length : ℕ) : Prop extends edit.InText length where
  not_intoItself : ¬edit.IntoItself

/-- The edits do not overlap: their spans share no character and are not insertions at one place; two moves change
parts of the file that do not even touch; and a file gets replacements or moves. -/
def Separate (edit edit' : FileEdit) : Prop :=
  edit.file = edit'.file →
    match edit.moveTo, edit'.moveTo with
    | none, none => (edit.stop ≤ edit'.start ∨ edit'.stop ≤ edit.start) ∧
        ¬(edit.start = edit.stop ∧ edit'.start = edit'.stop ∧ edit.start = edit'.start)
    | some destination, some destination' =>
      (moveRange edit destination).2 < (moveRange edit' destination').1 ∨
        (moveRange edit' destination').2 < (moveRange edit destination).1
    | _, _ => False

/-- What an edit puts where in a text, and what it takes out; a moved span is put in at its destination. -/
def FileEdit.changes (text : Text) (edit : FileEdit) : List (Replacement Char) :=
  match edit.moveTo with
  | none => [⟨edit.start, edit.stop, edit.replacement⟩]
  | some destination =>
    if edit.start < edit.stop then
      [⟨destination, destination, slice edit.start edit.stop text⟩, ⟨edit.start, edit.stop, []⟩]
    else []

/-- The edits of the accepted proposals in a file. -/
def fileEdits (accepted : List Proposal) (file : Text) : List FileEdit :=
  accepted.flatMap fun proposal => proposal.edits.filter fun edit => edit.file = file

/-- **All edits at once**, in the coordinates of the text. -/
def simultaneous (edits : List FileEdit) (text : Text) : Text := together (edits.flatMap (FileEdit.changes text)) 0 text

/-- The edit as it is applied. -/
def FileEdit.toEdit (edit : FileEdit) (rule : Text) : Edit :=
  match edit.moveTo with
  | none => .replace edit.start edit.stop edit.replacement rule
  | some destination => .move edit.start edit.stop destination rule

section File

variable {edit edit' : FileEdit} {accepted : List Proposal} {file : Text}

theorem Separate.symm (h : Separate edit edit') : Separate edit' edit := by
  intro hfile
  have h := h hfile.symm
  cases hmove : edit.moveTo with
  | none =>
    cases hmove' : edit'.moveTo with
    | none =>
      rw [hmove, hmove'] at h
      exact ⟨h.1.symm, fun hsame => h.2 ⟨hsame.2.1, hsame.1, hsame.2.2.symm⟩⟩
    | some destination' =>
      rw [hmove, hmove'] at h
      exact h.elim
  | some destination =>
    cases hmove' : edit'.moveTo with
    | none =>
      rw [hmove, hmove'] at h
      exact h.elim
    | some destination' =>
      rw [hmove, hmove'] at h
      exact h.symm

theorem inRange_toEdit {length : ℕ} (h : edit.InRange length) (rule : Text) : (edit.toEdit rule).InRange length := by
  unfold FileEdit.toEdit
  cases hmove : edit.moveTo with
  | none => exact ⟨h.le, h.stop_le⟩
  | some destination =>
    exact ⟨h.le, h.stop_le, h.destination_le destination hmove, fun hinto => h.not_intoItself ⟨destination, hmove, hinto⟩⟩

theorem perm_changes (text : Text) (edit : FileEdit) (rule : Text) :
    (edit.changes text).Perm ((edit.toEdit rule).changes text) := by
  unfold FileEdit.toEdit FileEdit.changes
  cases hmove : edit.moveTo with
  | none => exact List.Perm.refl _
  | some destination =>
    dsimp only [Edit.changes]
    split
    · split
      · exact List.Perm.refl _
      · exact List.Perm.swap _ _ _
    · exact List.Perm.refl _

/-- Of two separate edits in a file, the one that comes first in the order of application comes last. -/
theorem before_of_separate {length : ℕ} (hrange : edit.InRange length) (hrange' : edit'.InRange length)
    (hfile : edit.file = edit'.file) (h : Separate edit edit') (rule rule' : Text)
    (horder : (edit.toEdit rule).range.1 < (edit'.toEdit rule').range.1 ∨
      (edit.toEdit rule).range.1 = (edit'.toEdit rule').range.1 ∧
        (edit.toEdit rule).range.2 ≤ (edit'.toEdit rule').range.2) :
    (edit.toEdit rule).Before (edit'.toEdit rule') := by
  have h := h hfile
  have hle := hrange.le
  have hle' := hrange'.le
  cases hmove : edit.moveTo with
  | none =>
    cases hmove' : edit'.moveTo with
    | none =>
      rw [hmove, hmove'] at h
      simp only [FileEdit.toEdit, hmove, hmove', Edit.range] at horder ⊢
      refine ⟨by dsimp only [Edit.range]; omega, fun text span hspan span' hspan' => ?_⟩
      rw [List.mem_singleton.1 hspan, List.mem_singleton.1 hspan']
      exact h
    | some destination' =>
      rw [hmove, hmove'] at h
      exact h.elim
  | some destination =>
    cases hmove' : edit'.moveTo with
    | none =>
      rw [hmove, hmove'] at h
      exact h.elim
    | some destination' =>
      rw [hmove, hmove'] at h
      dsimp only [moveRange] at h
      have hedit := inRange_toEdit hrange rule
      have hedit' := inRange_toEdit hrange' rule'
      simp only [FileEdit.toEdit, hmove, hmove', Edit.range] at horder hedit hedit' ⊢
      have hlt : max edit.stop destination < min edit'.start destination' := by omega
      refine ⟨Nat.le_of_lt hlt, fun text span hspan span' hspan' => ?_⟩
      -- the spans are strictly apart
      have hin := (changes_spec hedit text).1 span hspan
      have hin' := (changes_spec hedit' text).1 span' hspan'
      dsimp only [Edit.range] at hin hin'
      exact ⟨.inl (by omega), fun hsame => by omega⟩

end File

/-! ## The order of application -/

theorem isLE_backwards {first second : (ℕ × ℕ) × Edit} : (backwards first second).isLE = true ↔
    second.1.1 < first.1.1 ∨ (second.1.1 = first.1.1 ∧ second.1.2 ≤ first.1.2) := by
  rw [backwards]
  cases hcompare : compare second.1.1 first.1.1 with
  | lt => simp [compare_lt_iff_lt.1 hcompare]
  | eq =>
    have heq := compare_eq_iff_eq.1 hcompare
    simp [heq, Nat.isLE_compare]
  | gt =>
    have hgt := compare_gt_iff_gt.1 hcompare
    have hne : second.1.1 ≠ first.1.1 := by omega
    have hnot : ¬second.1.1 < first.1.1 := by omega
    simp [hne, hnot]

instance : Std.TransCmp backwards where
  eq_swap {first second} := by
    rw [backwards, backwards, Ordering.swap_then, Nat.compare_swap, Nat.compare_swap]
  isLE_trans {first second third} h h' := by
    rw [isLE_backwards] at h h' ⊢
    omega

/-- The edits of a file with the rules they are made for. -/
def ownedIn (accepted : List Proposal) (file : Text) : List (FileEdit × Text) :=
  accepted.flatMap fun proposal =>
    (proposal.edits.filter fun edit => edit.file = file).map fun edit => (edit, proposal.rule)

section Order

variable {accepted : List Proposal} {file : Text}

theorem ownedIn_map_fst (accepted : List Proposal) (file : Text) :
    (ownedIn accepted file).map Prod.fst = fileEdits accepted file := by
  rw [ownedIn, List.map_flatMap, fileEdits]
  refine List.flatMap_congr fun proposal _ => ?_
  rw [List.map_map]
  exact List.map_id _

theorem mem_ownedIn {entry : FileEdit × Text} (h : entry ∈ ownedIn accepted file) :
    entry.1 ∈ fileEdits accepted file ∧ entry.1.file = file := by
  have hmem : entry.1 ∈ fileEdits accepted file := ownedIn_map_fst accepted file ▸ List.mem_map_of_mem h
  obtain ⟨proposal, -, hedit⟩ := List.mem_flatMap.1 hmem
  exact ⟨hmem, of_decide_eq_true (List.mem_filter.1 hedit).2⟩

theorem fileEdits_sublist (accepted : List Proposal) (file : Text) :
    (fileEdits accepted file).Sublist (accepted.flatMap Proposal.edits) := by
  rw [fileEdits]
  induction accepted with
  | nil => exact .slnil
  | cons proposal accepted ih => exact List.filter_sublist.append ih

theorem pairwise_ownedIn (h : (accepted.flatMap Proposal.edits).Pairwise Separate) :
    (ownedIn accepted file).Pairwise fun entry entry' => Separate entry.1 entry'.1 := by
  rw [← @List.pairwise_map _ _ Prod.fst, ownedIn_map_fst]
  exact h.sublist (fileEdits_sublist accepted file)

/-- A file gets moves or replacements. -/
theorem editsOf_eq (h : (accepted.flatMap Proposal.edits).Pairwise Separate) :
    editsOf accepted file = (sortBy backwards ((ownedIn accepted file).map fun entry =>
      ((entry.1.toEdit entry.2).range, entry.1.toEdit entry.2))).map Prod.snd := by
  have hpairwise := @pairwise_ownedIn accepted file h
  change (sortBy backwards (if ((ownedIn accepted file).filterMap _).isEmpty then (ownedIn accepted file).map _
    else (ownedIn accepted file).filterMap _)).map Prod.snd = _
  by_cases hmoves : ∃ entry ∈ ownedIn accepted file, entry.1.moveTo.isSome = true
  · obtain ⟨entry, hentry, hmove⟩ := hmoves
    have hall : ∀ other ∈ ownedIn accepted file, ∃ destination, other.1.moveTo = some destination := by
      intro other hother
      by_cases heq : entry = other
      · exact Option.isSome_iff_exists.1 (heq ▸ hmove)
      · have hsymm : Std.Symm fun entry entry' : FileEdit × Text => Separate entry.1 entry'.1 := ⟨fun _ _ h => h.symm⟩
        have hsep := hpairwise.forall hentry hother heq ((mem_ownedIn hentry).2.trans (mem_ownedIn hother).2.symm)
        obtain ⟨destination, hdestination⟩ := Option.isSome_iff_exists.1 hmove
        rw [hdestination] at hsep
        cases hother : other.1.moveTo with
        | none =>
          rw [hother] at hsep
          exact hsep.elim
        | some destination' => exact ⟨destination', rfl⟩
    have hmap : ((ownedIn accepted file).filterMap fun edit => edit.1.moveTo.map fun destination =>
        (moveRange edit.1 destination, Edit.move edit.1.start edit.1.stop destination edit.2)) =
          (ownedIn accepted file).map fun entry => ((entry.1.toEdit entry.2).range, entry.1.toEdit entry.2) := by
      rw [← List.filterMap_eq_map]
      refine List.filterMap_congr fun other hother => ?_
      obtain ⟨destination, hdestination⟩ := hall other hother
      simp only [hdestination, Option.map_some, Function.comp, FileEdit.toEdit]
      rfl
    rw [hmap, if_neg]
    intro hempty
    rw [List.isEmpty_iff, List.map_eq_nil_iff] at hempty
    rw [hempty] at hentry
    cases hentry
  · have hnone : ∀ entry ∈ ownedIn accepted file, entry.1.moveTo = none := by
      intro entry hentry
      exact Option.not_isSome_iff_eq_none.1 fun hmove => hmoves ⟨entry, hentry, hmove⟩
    rw [List.filterMap_eq_nil_iff.2 fun entry hentry => by rw [hnone entry hentry, Option.map_none]]
    change (sortBy backwards ((ownedIn accepted file).map _)).map Prod.snd = _
    congr 2
    refine List.map_congr_left fun entry hentry => ?_
    simp only [FileEdit.toEdit, hnone entry hentry]
    rfl

/-- **The edits of a file**, from the last to the first. -/
theorem editsOf_spec {text : Text} (h : (accepted.flatMap Proposal.edits).Pairwise Separate)
    (hrange : ∀ edit ∈ fileEdits accepted file, edit.InRange text.length) :
    ∃ edits : List Edit, editsOf accepted file = edits.reverse ∧ edits.Pairwise Edit.Before ∧
      (∀ edit ∈ edits, edit.InRange text.length) ∧
        ((fileEdits accepted file).flatMap (FileEdit.changes text)).Perm (edits.flatMap (Edit.changes text)) := by
  rw [editsOf_eq h]
  have hpairwise := @pairwise_ownedIn accepted file h
  generalize hsorted : sortBy backwards ((ownedIn accepted file).map fun entry =>
    ((entry.1.toEdit entry.2).range, entry.1.toEdit entry.2)) = sorted
  have hperm : sorted.Perm ((ownedIn accepted file).map fun entry =>
      ((entry.1.toEdit entry.2).range, entry.1.toEdit entry.2)) := by
    rw [← hsorted]
    exact List.perm_insertionSort _ _
  have hordered : sorted.Pairwise fun entry entry' => (backwards entry entry').isLE = true := by
    rw [← hsorted]
    exact pairwise_sortBy _
  have hentry {entry : (ℕ × ℕ) × Edit} (hmem : entry ∈ sorted) : ∃ own ∈ ownedIn accepted file,
      entry = ((own.1.toEdit own.2).range, own.1.toEdit own.2) := by
    obtain ⟨own, hown, rfl⟩ := List.mem_map.1 (hperm.mem_iff.1 hmem)
    exact ⟨own, hown, rfl⟩
  have hseparate : sorted.Pairwise fun entry entry' =>
      ((backwards entry entry').isLE = true → entry'.2.Before entry.2) ∧
        ((backwards entry' entry).isLE = true → entry.2.Before entry'.2) := by
    refine (hperm.pairwise_iff fun h => h.symm).2 (List.pairwise_map.2 (hpairwise.imp_of_mem ?_))
    intro own own' hown hown' hsep
    obtain ⟨hmem, hfile⟩ := mem_ownedIn hown
    obtain ⟨hmem', hfile'⟩ := mem_ownedIn hown'
    have hin := hrange own.1 hmem
    have hin' := hrange own'.1 hmem'
    exact ⟨fun horder => before_of_separate hin' hin (hfile'.trans hfile.symm) hsep.symm _ _ (isLE_backwards.1 horder),
      fun horder => before_of_separate hin hin' (hfile.trans hfile'.symm) hsep _ _ (isLE_backwards.1 horder)⟩
  refine ⟨(sorted.map Prod.snd).reverse, (List.reverse_reverse _).symm, ?_, ?_, ?_⟩
  · rw [List.pairwise_reverse, List.pairwise_map]
    exact (hordered.and hseparate).imp fun hboth => hboth.2.1 hboth.1
  · intro edit hedit
    obtain ⟨entry, hmem, rfl⟩ := List.mem_map.1 (List.mem_reverse.1 hedit)
    obtain ⟨own, hown, rfl⟩ := hentry hmem
    exact inRange_toEdit (hrange own.1 (mem_ownedIn hown).1) own.2
  · rw [← ownedIn_map_fst, List.flatMap_map]
    refine List.Perm.trans (List.Perm.flatMap_left _ fun own _ => perm_changes text own.1 own.2) ?_
    have hmap : (ownedIn accepted file).flatMap (fun own => (own.1.toEdit own.2).changes text) =
        (((ownedIn accepted file).map fun own => ((own.1.toEdit own.2).range, own.1.toEdit own.2)).map
          Prod.snd).flatMap (Edit.changes text) := by
      rw [List.map_map, List.flatMap_map]
      rfl
    rw [hmap]
    exact List.Perm.flatMap_right _ ((hperm.symm.map Prod.snd).trans (List.reverse_perm _).symm)

end Order

/-! ## The accepted proposals -/

/-- What is taken and moved are the edits of the accepted proposals, which are separate. -/
structure Separated (taken : Taken) : Prop where
  spans : ∀ edit ∈ taken.accepted.flatMap Proposal.edits, edit.moveTo = none →
    (edit.file, edit.start, edit.stop) ∈ taken.taken
  moves : ∀ edit ∈ taken.accepted.flatMap Proposal.edits, ∀ destination, edit.moveTo = some destination →
    (edit.file, moveRange edit destination) ∈ taken.moving
  separate : (taken.accepted.flatMap Proposal.edits).Pairwise Separate

section Accepted

variable {proposals accepted : List Proposal} {taken taken' : Taken} {proposal : Proposal}

theorem not_clashes {spans : List (Text × ℕ × ℕ)} {edit other : FileEdit} (h : ¬clashes spans edit = true)
    (hmem : (other.file, other.start, other.stop) ∈ spans) (hfile : other.file = edit.file) :
    (other.stop ≤ edit.start ∨ edit.stop ≤ other.start) ∧
      ¬(other.start = other.stop ∧ edit.start = edit.stop ∧ other.start = edit.start) := by
  rw [clashes, List.any_eq_true] at h
  have hno : ¬((!(edit.stop ≤ other.start || other.stop ≤ edit.start) ||
      (edit.start = edit.stop && edit.stop = other.start)) = true) := fun hclash =>
    h ⟨_, hmem, by rw [decide_eq_true hfile, Bool.true_and]; exact hclash⟩
  simp only [Bool.or_eq_true, Bool.not_eq_true', Bool.or_eq_false_iff, decide_eq_false_iff_not, Bool.and_eq_true,
    decide_eq_true_eq] at hno
  omega

/-- A proposal with replacements, none of which meets an earlier one. -/
theorem Separated.replace (h : Separated taken) (hown : proposal.edits.Pairwise Separate)
    (hnone : ∀ edit ∈ proposal.edits, edit.moveTo = none)
    (hmoving : ∀ edit ∈ proposal.edits, ∀ span ∈ taken.moving, span.1 ≠ edit.file)
    (hclash : ∀ edit ∈ proposal.edits, ¬clashes taken.taken edit = true) :
    Separated { taken with
      taken := taken.taken ++ proposal.edits.map fun edit => (edit.file, edit.start, edit.stop)
      accepted := taken.accepted ++ [proposal] } := by
  have hedits : (taken.accepted ++ [proposal]).flatMap Proposal.edits =
      taken.accepted.flatMap Proposal.edits ++ proposal.edits := by
    rw [List.flatMap_append, List.flatMap_singleton]
  refine ⟨?_, ?_, ?_⟩ <;> dsimp only <;> rw [hedits]
  · intro edit hedit hmove
    rcases List.mem_append.1 hedit with hedit | hedit
    · exact List.mem_append_left _ (h.spans edit hedit hmove)
    · exact List.mem_append_right _ (List.mem_map_of_mem hedit)
  · intro edit hedit destination hmove
    rcases List.mem_append.1 hedit with hedit | hedit
    · exact h.moves edit hedit destination hmove
    · rw [hnone edit hedit] at hmove
      cases hmove
  · rw [List.pairwise_append]
    refine ⟨h.separate, hown, fun other hother edit hedit hfile => ?_⟩
    cases hmove : other.moveTo with
    | none =>
      rw [hnone edit hedit]
      exact not_clashes (hclash edit hedit) (h.spans other hother hmove) hfile
    | some destination => exact absurd hfile (hmoving edit hedit _ (h.moves other hother destination hmove))

/-- A proposal with one move, whose range meets none of an earlier one. -/
theorem Separated.move {edit : FileEdit} {destination : ℕ} (h : Separated taken) (hedits : proposal.edits = [edit])
    (hmove : edit.moveTo = some destination) (htaken : ∀ span ∈ taken.taken, span.1 ≠ edit.file)
    (hmoving : ∀ span ∈ taken.moving, span.1 = edit.file →
      (moveRange edit destination).2 < span.2.1 ∨ span.2.2 < (moveRange edit destination).1) :
    Separated { taken with
      moving := taken.moving ++ [(edit.file, moveRange edit destination)]
      accepted := taken.accepted ++ [proposal] } := by
  have hall : (taken.accepted ++ [proposal]).flatMap Proposal.edits =
      taken.accepted.flatMap Proposal.edits ++ [edit] := by
    rw [List.flatMap_append, List.flatMap_singleton, hedits]
  refine ⟨?_, ?_, ?_⟩ <;> dsimp only <;> rw [hall]
  · intro other hother hnone
    rcases List.mem_append.1 hother with hother | hother
    · exact h.spans other hother hnone
    · rw [List.mem_singleton.1 hother, hmove] at hnone
      cases hnone
  · intro other hother destination' hmove'
    rcases List.mem_append.1 hother with hother | hother
    · exact List.mem_append_left _ (h.moves other hother destination' hmove')
    · rw [List.mem_singleton.1 hother, hmove] at hmove'
      cases hmove'
      rw [List.mem_singleton.1 hother]
      exact List.mem_append_right _ (List.mem_singleton_self _)
  · rw [List.pairwise_append]
    refine ⟨h.separate, List.pairwise_singleton _ _, fun other hother last hlast hfile => ?_⟩
    rw [List.mem_singleton.1 hlast] at hfile ⊢
    rw [hmove]
    cases hmove' : other.moveTo with
    | none => exact absurd hfile (htaken _ (h.spans other hother hmove'))
    | some destination' => exact (hmoving _ (h.moves other hother destination' hmove') hfile).symm

theorem Separated.add (h : Separated taken) (hown : proposal.edits.Pairwise Separate)
    (hadd : taken.add proposal = some taken') :
    Separated taken' ∧ (taken'.accepted = taken.accepted ∨ taken'.accepted = taken.accepted ++ [proposal]) := by
  unfold Taken.add at hadd
  split at hadd
  · rename_i hmove
    split at hadd
    · rename_i edit hedits
      obtain ⟨destination, hdestination⟩ : ∃ destination, edit.moveTo = some destination := by
        rw [hedits] at hmove
        exact Option.isSome_iff_exists.1 (by simpa using hmove)
      rw [hdestination, Option.getD_some] at hadd
      dsimp only at hadd
      split at hadd
      · cases hadd
        exact ⟨h, .inl rfl⟩
      · rename_i hfree
        cases hadd
        simp only [Bool.or_eq_true, not_or, Bool.not_eq_true, List.any_eq_false, decide_eq_true_eq, Bool.and_eq_true,
          Bool.not_eq_true', Bool.or_eq_false_iff, decide_eq_false_iff_not, not_and, not_not] at hfree
        refine ⟨h.move hedits hdestination hfree.1 fun span hspan hfile => ?_, .inr rfl⟩
        have hmeet := hfree.2 span hspan hfile
        omega
    · cases hadd
  · rename_i hmove
    split at hadd
    · cases hadd
      exact ⟨h, .inl rfl⟩
    rename_i hmoving
    split at hadd
    · cases hadd
      exact ⟨h, .inl rfl⟩
    rename_i hclash
    cases hadd
    simp only [List.any_eq_true, not_exists, not_and, decide_eq_true_eq, Option.not_isSome_iff_eq_none]
      at hmove hmoving hclash
    exact ⟨h.replace hown hmove hmoving hclash, .inr rfl⟩

theorem separated_foldlM (h : Separated taken) (hown : ∀ proposal ∈ proposals, proposal.edits.Pairwise Separate)
    (hfold : proposals.foldlM Taken.add taken = some taken') :
    Separated taken' ∧ ∃ more, taken'.accepted = taken.accepted ++ more ∧ more.Sublist proposals := by
  induction proposals generalizing taken with
  | nil =>
    cases hfold
    exact ⟨h, [], (List.append_nil _).symm, .slnil⟩
  | cons proposal proposals ih =>
    obtain ⟨next, hnext, hrest⟩ := Option.bind_eq_some_iff.1 hfold
    obtain ⟨hkept, haccepted⟩ := h.add (hown proposal List.mem_cons_self) hnext
    obtain ⟨hend, more, hmore, hsub⟩ := ih hkept (fun other hother => hown other (List.mem_cons_of_mem _ hother)) hrest
    refine ⟨hend, ?_⟩
    rcases haccepted with haccepted | haccepted
    · exact ⟨more, by rw [hmore, haccepted], hsub.cons _⟩
    · exact ⟨proposal :: more, by rw [hmore, haccepted, List.append_assoc, List.singleton_append], hsub.cons_cons _⟩

/-- **The accepted proposals** are some of those made, and their edits are separate. -/
theorem separate_nonOverlapping (hown : ∀ proposal ∈ proposals, proposal.edits.Pairwise Separate)
    (h : nonOverlapping proposals = some accepted) :
    accepted.Sublist proposals ∧ (accepted.flatMap Proposal.edits).Pairwise Separate := by
  obtain ⟨taken, htaken, rfl⟩ := Option.map_eq_some_iff.1 h
  have hstart : Separated {} := ⟨(fun _ h => by cases h), (fun _ h => by cases h), .nil⟩
  obtain ⟨hkept, more, hmore, hsub⟩ := separated_foldlM hstart hown htaken
  rw [List.nil_append] at hmore
  exact ⟨hmore ▸ hsub, hkept.separate⟩

/-- An edit that is applied does not move a span into itself. -/
theorem not_intoItself_of_applyAll {edits : List Edit} {source source' : EditableSource}
    (h : applyAll source edits = .ok source') :
    ∀ start stop destination rule, .move start stop destination rule ∈ edits →
      ¬(start < destination ∧ destination < stop) := by
  induction edits generalizing source with
  | nil => exact fun _ _ _ _ hmem => by cases hmem
  | cons edit edits ih =>
    obtain ⟨next, hnext, hrest⟩ := foldlM_cons_eq_ok.1 h
    intro start stop destination rule hmem hinto
    rcases List.mem_cons.1 hmem with rfl | hmem
    · rw [EditableSource.apply, EditableSource.move, if_pos hinto] at hnext
      cases hnext
    · exact ih hrest start stop destination rule hmem hinto

theorem of_mem_editsOf {file : Text} (h : (accepted.flatMap Proposal.edits).Pairwise Separate) {edit : Edit}
    (hedit : edit ∈ editsOf accepted file) : ∃ own ∈ ownedIn accepted file, edit = own.1.toEdit own.2 := by
  rw [editsOf_eq h] at hedit
  obtain ⟨entry, hentry, rfl⟩ := List.mem_map.1 hedit
  obtain ⟨own, hown, rfl⟩ := List.mem_map.1 ((List.perm_insertionSort _ _).mem_iff.1 hentry)
  exact ⟨own, hown, rfl⟩

theorem mem_editsOf {file : Text} (h : (accepted.flatMap Proposal.edits).Pairwise Separate) {edit : FileEdit}
    (hedit : edit ∈ fileEdits accepted file) : ∃ rule, edit.toEdit rule ∈ editsOf accepted file := by
  rw [← ownedIn_map_fst] at hedit
  obtain ⟨entry, hentry, rfl⟩ := List.mem_map.1 hedit
  refine ⟨entry.2, ?_⟩
  rw [editsOf_eq h]
  exact List.mem_map.2 ⟨_, (List.perm_insertionSort _ _).mem_iff.2 (List.mem_map_of_mem hentry), rfl⟩

/-- The edits of a file, none of which moves a span into itself, make the text in which all are made at once. -/
theorem applyAll_simultaneous {file original : Text} {source : EditableSource} {tracked : Tracked}
    (h : (accepted.flatMap Proposal.edits).Pairwise Separate) (hsource : Faithful original source tracked)
    (hrange : ∀ edit ∈ fileEdits accepted file, edit.InRange source.text.length) :
    ∃ source', applyAll source (editsOf accepted file) = .ok source' ∧
      source'.text = simultaneous (fileEdits accepted file) source.text := by
  obtain ⟨edits, heq, hbefore, hranges, hperm⟩ := editsOf_spec h hrange
  obtain ⟨source', -, happly, -, htext⟩ := applyAll_reverse hsource hranges hbefore
  obtain ⟨hascending, hapart⟩ := ascending_changes hranges hbefore
  refine ⟨source', by rw [heq]; exact happly, ?_⟩
  calc source'.text = replaceBackwards (edits.flatMap (Edit.changes source.text)) source.text :=
        htext.trans (foldr_applyText hranges hbefore).1
    _ = together (edits.flatMap (Edit.changes source.text)) 0 source.text := replaceBackwards_eq hascending
    _ = simultaneous (fileEdits accepted file) source.text :=
        together_perm hperm.symm hapart hascending.le source.text

/-- **A round makes its edits at once.**  For proposals whose own edits are separate, the accepted edits are
separate; and in every text that they are spans of, applied in the order of the engine, they give the text in which
all of them are made at once, unless one moves a span into itself, which is an error. -/
theorem round_simultaneous (hown : ∀ proposal ∈ proposals, proposal.edits.Pairwise Separate)
    (haccepted : nonOverlapping proposals = some accepted) :
    accepted.Sublist proposals ∧ (accepted.flatMap Proposal.edits).Pairwise Separate ∧
      ∀ (file original : Text) (source : EditableSource) (tracked : Tracked), Edited original source tracked →
        (∀ edit ∈ fileEdits accepted file, edit.InText source.text.length) →
          (∀ source', applyAll source (editsOf accepted file) = .ok source' →
            source'.text = simultaneous (fileEdits accepted file) source.text) ∧
          ((∀ edit ∈ fileEdits accepted file, ¬edit.IntoItself) →
            ∃ source', applyAll source (editsOf accepted file) = .ok source') := by
  obtain ⟨hsub, hseparate⟩ := separate_nonOverlapping hown haccepted
  refine ⟨hsub, hseparate, fun file original source tracked hedited hin => ⟨fun source' happly => ?_, fun hnot => ?_⟩⟩
  · have hrange : ∀ edit ∈ fileEdits accepted file, edit.InRange source.text.length := by
      refine fun edit hedit => ⟨hin edit hedit, ?_⟩
      rintro ⟨destination, hmove, hinto⟩
      obtain ⟨rule, hmem⟩ := mem_editsOf hseparate hedit
      rw [FileEdit.toEdit, hmove] at hmem
      exact not_intoItself_of_applyAll happly _ _ _ _ hmem hinto
    obtain ⟨source'', happly', htext⟩ := applyAll_simultaneous hseparate hedited.faithful hrange
    rw [happly] at happly'
    cases happly'
    exact htext
  · obtain ⟨source', happly, -⟩ := applyAll_simultaneous hseparate hedited.faithful
      fun edit hedit => ⟨hin edit hedit, hnot edit hedit⟩
    exact ⟨source', happly⟩

end Accepted

/-- A replacement, insertions on both sides of it, and one proposal that meets the replacement; and two moves in
another file, with a third one that touches the first. -/
def mixedProposals : List Proposal :=
  let insert := fun (offset : ℕ) (text : String) => FileEdit.mk "a".toList offset offset text.toList none
  let move := fun (start stop destination : ℕ) => FileEdit.mk "b".toList start stop [] (some destination)
  [⟨"R".toList, ⟨"R".toList, "a".toList, 0, []⟩, [insert 2 "<"]⟩,
    ⟨"R".toList, ⟨"R".toList, "a".toList, 2, []⟩, [FileEdit.mk "a".toList 2 4 "XYZ".toList none, insert 4 ">"]⟩,
    ⟨"R".toList, ⟨"R".toList, "a".toList, 3, []⟩, [FileEdit.mk "a".toList 3 5 [] none]⟩,
    ⟨"M".toList, ⟨"M".toList, "b".toList, 0, []⟩, [move 0 1 2]⟩,
    ⟨"M".toList, ⟨"M".toList, "b".toList, 2, []⟩, [move 2 3 4]⟩,
    ⟨"M".toList, ⟨"M".toList, "b".toList, 3, []⟩, [move 4 6 3]⟩]

theorem round_simultaneous_mixedProposals : ∃ source',
    applyAll (.ofText "abcdef".toList)
      (editsOf ((mixedProposals.eraseIdx 4).eraseIdx 2) "b".toList) = .ok source' ∧
    source'.text = simultaneous (fileEdits ((mixedProposals.eraseIdx 4).eraseIdx 2) "b".toList) "abcdef".toList ∧
    source'.text = "bacefd".toList := by
  have hown : ∀ proposal ∈ mixedProposals, proposal.edits.Pairwise Separate := by
    intro proposal hmem
    simp only [mixedProposals, List.mem_cons, List.not_mem_nil, or_false] at hmem
    rcases hmem with rfl | rfl | rfl | rfl | rfl | rfl <;> simp [Separate]
  have haccepted : nonOverlapping mixedProposals = some ((mixedProposals.eraseIdx 4).eraseIdx 2) := by decide +kernel
  have hedits : fileEdits ((mixedProposals.eraseIdx 4).eraseIdx 2) "b".toList =
      [⟨"b".toList, 0, 1, [], some 2⟩, ⟨"b".toList, 4, 6, [], some 3⟩] := by decide +kernel
  have hmade := (round_simultaneous hown haccepted).2.2 "b".toList "abcdef".toList _ _ (.start) (by
    rw [hedits]
    intro edit hedit
    simp only [List.mem_cons, List.not_mem_nil, or_false] at hedit
    rcases hedit with rfl | rfl
    · exact ⟨by decide, by decide, fun destination h => by cases h; decide⟩
    · exact ⟨by decide, by decide, fun destination h => by cases h; decide⟩)
  obtain ⟨source', happly⟩ := hmade.2 (by
    rw [hedits]
    intro edit hedit
    simp only [List.mem_cons, List.not_mem_nil, or_false] at hedit
    rcases hedit with rfl | rfl <;> (rintro ⟨destination, h, hinto⟩; cases h; revert hinto; decide))
  refine ⟨source', happly, hmade.1 source' happly, ?_⟩
  rw [hmade.1 source' happly]
  decide +kernel

end SemantiST.Intake
