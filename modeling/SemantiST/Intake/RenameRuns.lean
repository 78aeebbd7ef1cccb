import SemantiST.Intake.Accepted
import SemantiST.Intake.AppliedKeys
import SemantiST.Intake.Renaming
import SemantiST.Intake.Simultaneous
import SemantiST.Lib.Spans

/-!
# Runs of renaming rules

What the renaming rules do over a whole normalization: the occurrences that were spelled alike stay so, and
those that were not do not become so, as long as no quoted name takes the place of another word.
-/

namespace SemantiST.Intake.Naming

open Lib

/-! ## Tokens with a name -/

section Tokens

variable {u : UnicodeData}

/-- A word or a quoted name. -/
def Named (kind : TokenKind) : Prop := kind = .keyword ∨ kind = .identifier ∨ kind = .wstring

/-- What is read as a name has a character, and lies in the text. -/
def Within (s : Text) (read : TokenKind × ℕ) : Prop := Named read.1 → 0 < read.2 ∧ read.2 ≤ s.length

theorem within_scan (s : Text) : Within s (scan u s) := by
  cases s with
  | nil => rintro (h | h | h) <;> cases h
  | cons c rest => exact fun _ => reads_scan u c rest

theorem named_tokensFrom (fuel i line lineStart : ℕ) (s : Text) : ∀ token ∈ tokensFrom u fuel i line lineStart s,
    Named token.kind → token.start < token.stop ∧ token.stop ≤ i + s.length := by
  induction fuel generalizing i line lineStart s with
  | zero => exact fun token hmem => by cases hmem
  | succ fuel ih =>
    cases s with
    | nil => exact fun token hmem => by cases hmem
    | cons c rest =>
      have hscan := @within_scan u (c :: rest)
      simp only [tokensFrom]
      generalize scan u (c :: rest) = read at hscan
      intro token hmem hnamed
      rcases List.mem_cons.1 hmem with rfl | hmem
      · obtain ⟨hpos, hle⟩ := hscan hnamed
        dsimp only
        omega
      · obtain ⟨hlt, hle⟩ := ih _ _ _ _ token hmem hnamed
        refine ⟨hlt, ?_⟩
        rw [List.length_drop] at hle
        by_cases hwithin : read.2 ≤ (c :: rest).length
        · omega
        · rw [List.drop_of_length_le (by omega)] at hmem
          cases fuel <;> cases hmem

end Tokens

/-! ## Accepted proposals -/

/-- Two edits share no character. -/
def Apart (edit edit' : FileEdit) : Prop :=
  edit.file = edit'.file → edit.stop ≤ edit'.start ∨ edit'.stop ≤ edit.start

/-- No edit of one proposal shares a character with one of the other. -/
def ProposalsApart (proposal proposal' : Proposal) : Prop :=
  ∀ edit ∈ proposal.edits, ∀ edit' ∈ proposal'.edits, Apart edit edit'

/-! ## Proposals of a round -/

section Collected

variable {u : UnicodeData} {config : Config} {index : Text → SourceIndex} {known : List Text}

/-- A renaming and its proposal, made when at least some names were known, and known ones since. -/
structure Made (config : Config) (index : Text → SourceIndex) (known now : List Text) (made : Renaming u × Proposal) :
    Prop where
  edits : made.2.edits = editsAt config.files index made.1.newText
  drawn : made.1.drawn = true → made.1.name ∉ known ∧ MayBeDrawn made.1.name ∧ made.1.name ∈ now
  kept : made.1.drawn = false → made.2.rule = quotedIdentifierId ∧ made.2.key.tag = made.1.name

theorem Made.mono {now now' : List Text} {made : Renaming u × Proposal} (h : Made config index known now made)
    (hnow : now ⊆ now') : Made config index known now' made where
  edits := h.edits
  drawn hdrawn := ⟨(h.drawn hdrawn).1, (h.drawn hdrawn).2.1, hnow (h.drawn hdrawn).2.2⟩
  kept := h.kept

/-- The names that are drawn differ. -/
def NamesApart (made made' : Renaming u × Proposal) : Prop :=
  made.1.drawn = true → made'.1.drawn = true → made.1.name ≠ made'.1.name

theorem offer_spec (order : List RuleName) (file : Text) (located : Located) :
    known ⊆ (offer index file located (order.map (config.rule u)) known).2 ∧
      ∀ proposal, (offer index file located (order.map (config.rule u)) known).1 = some proposal →
        ∃ r : Renaming u, Makes config ⟨index, known⟩ (offer index file located (order.map (config.rule u)) known).2
          proposal r := by
  induction order generalizing known with
  | nil => exact ⟨List.Subset.refl _, fun _ h => by cases h⟩
  | cons name order ih =>
    rw [List.map_cons, offer]
    split
    · obtain ⟨hsome, hnone⟩ := @rule_spec u config ⟨index, known⟩ name file located
      split
      · rename_i proposal known' hpropose
        rw [hpropose] at hsome
        obtain ⟨r, hr⟩ := hsome proposal rfl
        refine ⟨?_, fun _ h => ?_⟩
        · cases hdrawn : r.drawn with
          | true =>
            rw [(hr.drawn hdrawn).2.2]
            exact List.subset_append_left _ _
          | false =>
            rw [(hr.kept hdrawn).1]
            exact List.Subset.refl _
        · cases h
          exact ⟨r, hr⟩
      · rename_i known' hpropose
        rw [hpropose] at hnone
        obtain rfl : known' = known := hnone rfl
        exact ih
    · exact ih

/-- What the proposals of a round are, after some located errors. -/
structure Collects (config : Config) (index : Text → SourceIndex) (known : List Text) (offers : Offers)
    (all : List (Renaming u × Proposal)) : Prop where
  grown : known ⊆ offers.known
  proposals : offers.proposals = all.map Prod.snd
  made : ∀ made ∈ all, Made config index known offers.known made
  apart : all.Pairwise NamesApart

/-- **The proposals of a round are renamings** whose names are drawn one after the other. -/
theorem collect_spec (order : List RuleName) (applied : List OffsetKey) (located : List (Text × Located)) :
    ∃ all : List (Renaming u × Proposal),
      Collects config index known (collect (order.map (config.rule u)) index applied known located) all := by
  refine foldl_invariant (I := fun offers => ∃ all : List (Renaming u × Proposal), Collects config index known offers all)
    ?_ ⟨[], List.Subset.refl _, rfl, (fun made hmade => by cases hmade), .nil⟩
  rintro offers item - ⟨all, h⟩
  obtain ⟨hgrown, hoffer⟩ := @offer_spec u config index offers.known order item.1 item.2
  have hkeep : Collects config index known
      { offers with known := (offer index item.1 item.2 (order.map (config.rule u)) offers.known).2 } all :=
    ⟨List.Subset.trans h.grown hgrown, h.proposals, fun made hmade => (h.made made hmade).mono hgrown, h.apart⟩
  dsimp only
  split
  · rename_i proposal hproposal
    obtain ⟨r, hr⟩ := hoffer proposal hproposal
    unfold Offers.add
    split
    · exact ⟨all, hkeep.grown, hkeep.proposals, hkeep.made, hkeep.apart⟩
    split
    · exact ⟨all, hkeep⟩
    refine ⟨all ++ [(r, proposal)], hkeep.grown, ?_, ?_, ?_⟩
    · rw [List.map_append, ← hkeep.proposals]
      rfl
    · intro made hmade
      rcases List.mem_append.1 hmade with hmade | hmade
      · exact hkeep.made made hmade
      · rw [List.mem_singleton.1 hmade]
        refine ⟨hr.edits, fun hdrawn => ?_, fun hkept => (hr.kept hkept).2⟩
        obtain ⟨hnew, hform, hknown⟩ := hr.drawn hdrawn
        refine ⟨fun hold => hnew (h.grown hold), hform, ?_⟩
        change r.name ∈ (offer index item.1 item.2 (order.map (config.rule u)) offers.known).2
        rw [hknown]
        exact List.mem_append_right _ (List.mem_singleton_self _)
    · rw [List.pairwise_append]
      refine ⟨h.apart, List.pairwise_singleton _ _, ?_⟩
      intro made hmade last hlast hdrawn hdrawn' heq
      rw [List.mem_singleton.1 hlast] at hdrawn' heq
      -- the earlier name was known when the later one was drawn
      exact (hr.drawn hdrawn').1 (heq ▸ ((h.made made hmade).drawn hdrawn).2.2)
  · exact ⟨all, hkeep⟩

end Collected

/-! ## Texts -/

/-- The edit of a token. -/
def editAt (edits : List FileEdit) (file : Text) (token : LosslessToken) : Option FileEdit :=
  edits.find? fun edit => edit.file = file ∧ edit.start = token.start ∧ edit.stop = token.stop

def spanOf (edit : FileEdit) : Replacement Char := { start := edit.start, stop := edit.stop, new := edit.replacement }

/-- The spans of the tokens of a file that have an edit, with what replaces them. -/
def spansIn (edits : List FileEdit) (file : Text) (index : SourceIndex) : List (Replacement Char) :=
  index.significant.filterMap fun token => (editAt edits file token).map spanOf

/-- The text of a file with all edited tokens replaced at once. -/
def renamedText (edits : List FileEdit) (file : Text) (index : SourceIndex) : Text :=
  substitute 0 (spansIn edits file index) index.text

/-- The symbols of a file in which every replacement is a word. -/
def renamedSymbols (u : UnicodeData) (edits : List FileEdit) (file : Text) (index : SourceIndex) : List (Option Symbol) :=
  index.significant.map fun token =>
    match editAt edits file token with
    | some edit => some (.word (toAsciiUppercase edit.replacement))
    | none => symbolOf u token

section Texts

variable {u : UnicodeData} {index : Text → SourceIndex} {texts : Text → Text} {edits : List FileEdit} {file : Text}
  {edit edit' : FileEdit} {token : LosslessToken}

theorem named_of_symbolOf (h : (symbolOf u token).isSome = true) : Named token.kind := by
  unfold symbolOf at h
  split at h
  · rename_i hword
    rw [LosslessToken.isWord, Bool.or_eq_true, decide_eq_true_eq, decide_eq_true_eq] at hword
    exact hword.imp_right .inl
  split at h
  · rename_i hkind
    exact .inr (.inr hkind)
  · cases h

/-- A token with a symbol has a character, and lies in the text. -/
theorem bounds_of_symbolOf {text : Text} (htoken : token ∈ (SourceIndex.ofText u text).significant)
    (h : (symbolOf u token).isSome = true) : token.start < token.stop ∧ token.stop ≤ text.length := by
  have hmem : token ∈ tokenizeLossless u text := List.mem_of_mem_filter htoken
  have hbounds := named_tokensFrom text.length 0 1 0 text token hmem (named_of_symbolOf h)
  rwa [Nat.zero_add] at hbounds

/-- Edits of tokens with a symbol, no two of which share a character. -/
structure EditsTokens (u : UnicodeData) (index : Text → SourceIndex) (edits : List FileEdit) : Prop where
  apart : edits.Pairwise Apart
  token : ∀ edit ∈ edits, ∃ token ∈ (index edit.file).significant, (symbolOf u token).isSome = true ∧
    edit.start = token.start ∧ edit.stop = token.stop
  moveTo : ∀ edit ∈ edits, edit.moveTo = none

theorem mem_editsAt {files : List Text} {newText : LosslessToken → Option Text} :
    edit ∈ editsAt files index newText ↔ ∃ file ∈ files, ∃ token ∈ (index file).significant, ∃ replacement,
      newText token = some replacement ∧ edit = { file, start := token.start, stop := token.stop, replacement } := by
  simp only [editsAt, List.mem_flatMap, List.mem_filterMap, Option.map_eq_some_iff, eq_comm (a := edit)]

theorem editsTokens_editsAt {files : List Text} {newText : LosslessToken → Option Text} (hnodup : files.Nodup)
    (hindex : ∀ file, index file = .ofText u (texts file))
    (hnamed : ∀ token, (newText token).isSome = true → (symbolOf u token).isSome = true) :
    EditsTokens u index (editsAt files index newText) where
  apart := by
    rw [editsAt, List.pairwise_flatMap]
    constructor
    · intro file _
      rw [List.pairwise_filterMap]
      rw [hindex]
      refine (placed_significant u (texts file)).ordered.imp ?_
      rintro a b hab edit hedit edit' hedit' -
      obtain ⟨_, -, rfl⟩ := Option.map_eq_some_iff.1 hedit
      obtain ⟨_, -, rfl⟩ := Option.map_eq_some_iff.1 hedit'
      exact .inl hab
    · refine hnodup.imp ?_
      intro file file' hne edit hedit edit' hedit' hfile
      obtain ⟨_, -, hedit⟩ := List.mem_filterMap.1 hedit
      obtain ⟨_, -, hedit'⟩ := List.mem_filterMap.1 hedit'
      obtain ⟨_, -, rfl⟩ := Option.map_eq_some_iff.1 hedit
      obtain ⟨_, -, rfl⟩ := Option.map_eq_some_iff.1 hedit'
      exact absurd hfile hne
  token edit hedit := by
    obtain ⟨file, -, token, htoken, replacement, hnew, rfl⟩ := mem_editsAt.1 hedit
    exact ⟨token, htoken, hnamed token (by rw [hnew]; rfl), rfl, rfl⟩
  moveTo edit hedit := by
    obtain ⟨file, -, token, -, replacement, -, rfl⟩ := mem_editsAt.1 hedit
    rfl

theorem EditsTokens.bounds (h : EditsTokens u index edits) (hindex : ∀ file, index file = .ofText u (texts file))
    (hedit : edit ∈ edits) : edit.start < edit.stop ∧ edit.stop ≤ (texts edit.file).length := by
  obtain ⟨token, htoken, hsymbol, hstart, hstop⟩ := h.token edit hedit
  rw [hindex] at htoken
  rw [hstart, hstop]
  exact bounds_of_symbolOf htoken hsymbol

/-- Edits of one token are one edit. -/
theorem EditsTokens.eq_of_span (h : EditsTokens u index edits) (hindex : ∀ file, index file = .ofText u (texts file))
    (hedit : edit ∈ edits) (hedit' : edit' ∈ edits) (hfile : edit.file = edit'.file) (hstart : edit.start = edit'.start) :
    edit = edit' := by
  have hpos := (h.bounds hindex hedit).1
  have hpos' := (h.bounds hindex hedit').1
  rcases pairwise_cases h.apart hedit hedit' with heq | hapart | hapart
  · exact heq
  · rcases hapart hfile with hle | hle <;> omega
  · rcases hapart hfile.symm with hle | hle <;> omega

theorem of_editAt (h : editAt edits file token = some edit) :
    edit ∈ edits ∧ edit.file = file ∧ edit.start = token.start ∧ edit.stop = token.stop := by
  unfold editAt at h
  have hspan := List.find?_some h
  rw [decide_eq_true_eq] at hspan
  exact ⟨List.mem_of_find?_eq_some h, hspan⟩

/-- The edit of a token is one that has its span. -/
theorem EditsTokens.editAt_eq_some (h : EditsTokens u index edits) (hindex : ∀ file, index file = .ofText u (texts file)) :
    editAt edits file token = some edit ↔
      edit ∈ edits ∧ edit.file = file ∧ edit.start = token.start ∧ edit.stop = token.stop := by
  constructor
  · exact of_editAt
  · rintro ⟨hedit, hfile, hstart, hstop⟩
    cases hfind : editAt edits file token with
    | none => exact absurd (decide_eq_true ⟨hfile, hstart, hstop⟩) (List.find?_eq_none.1 hfind edit hedit)
    | some found =>
      obtain ⟨hfound, hfile', hstart', -⟩ := of_editAt hfind
      rw [h.eq_of_span hindex hfound hedit (hfile'.trans hfile.symm) (hstart'.trans hstart.symm)]

theorem mem_spansIn (h : EditsTokens u index edits) (hindex : ∀ file, index file = .ofText u (texts file))
    {span : Replacement Char} :
    span ∈ spansIn edits file (index file) ↔ ∃ edit ∈ edits, edit.file = file ∧ spanOf edit = span := by
  rw [spansIn, List.mem_filterMap]
  constructor
  · rintro ⟨token, -, hspan⟩
    obtain ⟨edit, hfind, rfl⟩ := Option.map_eq_some_iff.1 hspan
    obtain ⟨hedit, hfile, -⟩ := (h.editAt_eq_some hindex).1 hfind
    exact ⟨edit, hedit, hfile, rfl⟩
  · rintro ⟨edit, hedit, rfl, rfl⟩
    obtain ⟨token, htoken, -, hstart, hstop⟩ := h.token edit hedit
    refine ⟨token, htoken, ?_⟩
    rw [(h.editAt_eq_some hindex).2 ⟨hedit, rfl, hstart, hstop⟩]
    rfl

/-- The spans stand one after the other in the text. -/
theorem ascending_spansIn (h : EditsTokens u index edits) (hindex : ∀ file, index file = .ofText u (texts file)) :
    Ascending 0 (texts file).length (spansIn edits file (index file)) where
  pairwise := by
    rw [spansIn, List.pairwise_filterMap, hindex]
    refine (placed_significant u (texts file)).ordered.imp ?_
    intro a b hab span hspan span' hspan'
    obtain ⟨edit, hfind, rfl⟩ := Option.map_eq_some_iff.1 hspan
    obtain ⟨edit', hfind', rfl⟩ := Option.map_eq_some_iff.1 hspan'
    obtain ⟨-, -, -, hstop⟩ := (h.editAt_eq_some hindex).1 hfind
    obtain ⟨-, -, hstart, -⟩ := (h.editAt_eq_some hindex).1 hfind'
    change edit.stop ≤ edit'.start
    rwa [hstop, hstart]
  le span hspan := by
    obtain ⟨edit, hedit, -, rfl⟩ := (mem_spansIn h hindex).1 hspan
    exact (h.bounds hindex hedit).1.le
  within span hspan := by
    obtain ⟨edit, hedit, rfl, rfl⟩ := (mem_spansIn h hindex).1 hspan
    exact ⟨Nat.zero_le _, (h.bounds hindex hedit).2⟩

/-! ### Applied edits -/

theorem text_applyAll {edits : List Edit} {source source' : EditableSource}
    (hreplace : ∀ edit ∈ edits, ∃ (span : Replacement Char) (rule : Text),
      edit = .replace span.start span.stop span.new rule ∧ span.start ≤ span.stop)
    (h : applyAll source edits = .ok source') :
    source'.text = edits.foldl (fun text edit => edit.applyText text) source.text := by
  induction edits generalizing source with
  | nil =>
    cases h
    rfl
  | cons edit edits ih =>
    obtain ⟨next, hnext, hrest⟩ := foldlM_cons_eq_ok.1 h
    obtain ⟨span, rule, rfl, hle⟩ := hreplace edit List.mem_cons_self
    rw [EditableSource.apply, replace_eq source hle] at hnext
    cases hnext
    rw [ih (fun other hother => hreplace other (List.mem_cons_of_mem _ hother)) hrest, List.foldl_cons]
    congr 1
    rw [EditableSource.text, ← viewAll_fst, viewAll_replacedPieces hle, List.map_append, List.map_append, List.map_map,
      List.map_take, List.map_drop, viewAll_fst]
    simp only [Edit.applyText, replaceSpan, EditableSource.text]
    congr 2
    exact List.map_id _

theorem EditsTokens.separate (h : EditsTokens u index edits) (hindex : ∀ file, index file = .ofText u (texts file)) :
    edits.Pairwise Separate := by
  refine h.apart.imp_of_mem ?_
  intro edit edit' hedit hedit' hapart hfile
  have hpos := (h.bounds hindex hedit).1
  rw [h.moveTo edit hedit, h.moveTo edit' hedit']
  exact ⟨hapart hfile, fun hsame => Nat.ne_of_lt hpos hsame.1⟩

/-- **The applied edits of a round** give the text in which all edited tokens are replaced at once. -/
theorem text_round {accepted : List Proposal} {source source' : EditableSource}
    (h : EditsTokens u index (accepted.flatMap Proposal.edits)) (hindex : ∀ file, index file = .ofText u (texts file))
    (htext : texts file = source.text) (happly : applyAll source (editsOf accepted file) = .ok source') :
    source'.text = renamedText (accepted.flatMap Proposal.edits) file (index file) := by
  have hseparate := h.separate hindex
  have hmem {edit : FileEdit} : edit ∈ fileEdits accepted file ↔ edit ∈ accepted.flatMap Proposal.edits ∧ edit.file = file := by
    simp only [fileEdits, List.mem_flatMap, List.mem_filter, decide_eq_true_eq]
    constructor
    · rintro ⟨proposal, hproposal, hedit, hfile⟩
      exact ⟨⟨proposal, hproposal, hedit⟩, hfile⟩
    · rintro ⟨⟨proposal, hproposal, hedit⟩, hfile⟩
      exact ⟨proposal, hproposal, hedit, hfile⟩
  have hnone {edit : FileEdit} (hedit : edit ∈ fileEdits accepted file) : edit.moveTo = none :=
    h.moveTo edit (hmem.1 hedit).1
  have hbounds {edit : FileEdit} (hedit : edit ∈ fileEdits accepted file) :
      edit.start < edit.stop ∧ edit.stop ≤ source.text.length := by
    obtain ⟨hin, rfl⟩ := hmem.1 hedit
    rw [← htext]
    exact h.bounds hindex hin
  have hrange : ∀ edit ∈ fileEdits accepted file, edit.InRange source.text.length := by
    intro edit hedit
    refine ⟨⟨(hbounds hedit).1.le, (hbounds hedit).2, fun destination hmove => ?_⟩, ?_⟩
    · rw [hnone hedit] at hmove
      cases hmove
    · rintro ⟨destination, hmove, -⟩
      rw [hnone hedit] at hmove
      cases hmove
  obtain ⟨ascending, heq, hbefore, hranges, hperm⟩ := editsOf_spec hseparate hrange
  have hreplace : ∀ edit ∈ editsOf accepted file, ∃ (span : Replacement Char) (rule : Text),
      edit = .replace span.start span.stop span.new rule ∧ span.start ≤ span.stop := by
    intro edit hedit
    obtain ⟨own, hown, rfl⟩ := of_mem_editsOf hseparate hedit
    have hin := (mem_ownedIn hown).1
    refine ⟨spanOf own.1, own.2, ?_, (hbounds hin).1.le⟩
    rw [FileEdit.toEdit, hnone hin]
    rfl
  -- the spans of the edits are those of the tokens, in some order
  have hspans : (ascending.flatMap (Edit.changes source.text)).Perm
      (spansIn (accepted.flatMap Proposal.edits) file (index file)) := by
    have hchanges : (fileEdits accepted file).flatMap (FileEdit.changes source.text) =
        (fileEdits accepted file).map spanOf := by
      rw [List.map_eq_flatMap]
      refine List.flatMap_congr fun edit hedit => ?_
      rw [FileEdit.changes, hnone hedit]
      rfl
    rw [hchanges] at hperm
    have hnodup : (spansIn (accepted.flatMap Proposal.edits) file (index file)).Nodup := by
      refine (ascending_spansIn h hindex).pairwise.imp_of_mem fun hspan _ hle heq => ?_
      obtain ⟨edit, hedit, -, rfl⟩ := (mem_spansIn h hindex).1 hspan
      have hpos := (h.bounds hindex hedit).1
      rw [← heq] at hle
      exact Nat.not_le.2 hpos hle
    have hnodup' : ((fileEdits accepted file).map spanOf).Nodup := by
      refine List.pairwise_map.2 ((hseparate.sublist (fileEdits_sublist accepted file)).imp_of_mem ?_)
      intro edit edit' hedit hedit' hsep heq
      have hsep := hsep ((hmem.1 hedit).2.trans (hmem.1 hedit').2.symm)
      rw [hnone hedit, hnone hedit'] at hsep
      have hpos := (hbounds hedit).1
      have hstart := congrArg Replacement.start heq
      have hstop := congrArg Replacement.stop heq
      dsimp only [spanOf] at hstart hstop
      omega
    refine hperm.symm.trans ((List.perm_ext_iff_of_nodup hnodup' hnodup).2 fun span => ?_)
    rw [List.mem_map, mem_spansIn h hindex]
    simp only [hmem, and_assoc]
  obtain ⟨hascending, hapart⟩ := ascending_changes hranges hbefore
  have hall : Ascending 0 source.text.length (spansIn (accepted.flatMap Proposal.edits) file (index file)) :=
    htext ▸ ascending_spansIn h hindex
  calc source'.text = (editsOf accepted file).foldl (fun text edit => edit.applyText text) source.text :=
        text_applyAll hreplace happly
    _ = ascending.foldr Edit.applyText source.text := by rw [heq, List.foldl_reverse]
    _ = replaceBackwards (ascending.flatMap (Edit.changes source.text)) source.text := (foldr_applyText hranges hbefore).1
    _ = together (ascending.flatMap (Edit.changes source.text)) 0 source.text := replaceBackwards_eq hascending
    _ = together (spansIn (accepted.flatMap Proposal.edits) file (index file)) 0 source.text :=
        together_perm hspans hapart hascending.le source.text
    _ = substitute 0 (spansIn (accepted.flatMap Proposal.edits) file (index file)) source.text :=
        (@substitute_eq_together _ _ 0 _ (by rwa [Nat.zero_add])).symm
    _ = renamedText (accepted.flatMap Proposal.edits) file (index file) := by
        rw [renamedText, ← htext, hindex]
        rfl

end Texts

/-! ## Symbols over a run -/

section Runs

variable (u : UnicodeData) (config : Config)

/-- The symbols of a file in a state. -/
def symbolsIn (s : Normalizing) (file : Text) : List (Option Symbol) :=
  symbolsOf u (.ofText u (s.sources file).text)

/-- **The property**: occurrences that were spelled alike still are, those that were not still are not. -/
def KeptApart (files : List Text) (before after : Text → List (Option Symbol)) : Prop :=
  ∀ file ∈ files, ∀ file' ∈ files, ∀ (i j : ℕ) (a b : Symbol),
    (before file)[i]? = some (some a) → (before file')[j]? = some (some b) →
      ∃ a' b', (after file)[i]? = some (some a') ∧ (after file')[j]? = some (some b') ∧ (a' = b' ↔ a = b)

/-- A word of the texts. -/
def IsWord (s : Normalizing) (word : Text) : Prop := ∃ file ∈ config.files, some (.word word) ∈ symbolsIn u s file

/-- The proposal takes the quotes of a name away, and puts the name in their place. -/
def Unquotes (proposal : Proposal) (name : Text) : Prop :=
  proposal.rule = quotedIdentifierId ∧ proposal.key.tag = name ∧ isPlain name = true

/-- **The condition** on a round: a name whose quotes go is no word of the texts, and none that may still be
drawn; and no new name is glued to what stands next to it. -/
structure Careful (step : Normalizing × Round) : Prop where
  apart : ∀ proposal ∈ step.2.accepted, ∀ name, Unquotes proposal name →
    ¬IsWord u config step.1 name ∧ (name ∈ step.1.known ∨ ¬MayBeDrawn name)
  reads : ∀ file ∈ config.files,
    symbolsOf u (.ofText u (renamedText (step.2.accepted.flatMap Proposal.edits) file
      (.ofText u (step.1.sources file).text))) =
    renamedSymbols u (step.2.accepted.flatMap Proposal.edits) file (.ofText u (step.1.sources file).text)

/-- The words of the texts are known, but for those that are never drawn. -/
def Knows (s : Normalizing) : Prop := ∀ word, IsWord u config s word → word ∈ s.known ∨ ¬MayBeDrawn word

variable {u config} {s s' : Normalizing} {answer : Answer} {answers : List Answer}

theorem KeptApart.refl (files : List Text) (symbols : Text → List (Option Symbol)) : KeptApart files symbols symbols :=
  fun _ _ _ _ _ _ a b ha hb => ⟨a, b, ha, hb, Iff.rfl⟩

theorem KeptApart.trans {files : List Text} {before between after : Text → List (Option Symbol)}
    (h : KeptApart files before between) (h' : KeptApart files between after) : KeptApart files before after := by
  intro file hfile file' hfile' i j a b ha hb
  obtain ⟨a', b', ha', hb', hiff⟩ := h file hfile file' hfile' i j a b ha hb
  obtain ⟨a'', b'', ha'', hb'', hiff'⟩ := h' file hfile file' hfile' i j a' b' ha' hb'
  exact ⟨a'', b'', ha'', hb'', hiff'.trans hiff⟩

/-- Tokens of one span are one token, if it has a symbol. -/
theorem eq_of_span {text : Text} {token token' : LosslessToken} (h : token ∈ (SourceIndex.ofText u text).significant)
    (h' : token' ∈ (SourceIndex.ofText u text).significant) (hsymbol : (symbolOf u token).isSome = true)
    (hstart : token.start = token'.start) (hstop : token.stop = token'.stop) : token = token' := by
  have hpos := (bounds_of_symbolOf h hsymbol).1
  rcases pairwise_cases (placed_significant u text).ordered h h' with heq | hle | hle
  · exact heq
  · omega
  · omega

def textIn (s : Normalizing) (file : Text) : Text := (s.sources file).text

theorem index_textIn (s : Normalizing) (file : Text) :
    SourceIndex.ofText u (s.sources file).text = .ofText u (textIn s file) := rfl

/-- What a symbol becomes by some renamings. -/
def renameSymbol (all : List (Renaming u × Proposal)) (a : Symbol) : Symbol :=
  match all.find? fun made => made.1.symbol = a with
  | some made => .word made.1.name
  | none => a

theorem of_find {all : List (Renaming u × Proposal)} {a : Symbol} {made : Renaming u × Proposal}
    (h : (all.find? fun made => made.1.symbol = a) = some made) : made ∈ all ∧ made.1.symbol = a := by
  have hsame := List.find?_some h
  rw [decide_eq_true_eq] at hsame
  exact ⟨List.mem_of_find?_eq_some h, hsame⟩

/-- The renamings of accepted proposals. -/
structure Accepts (config : Config) (s : Normalizing) (known : List Text) (accepted : List Proposal)
    (all : List (Renaming u × Proposal)) : Prop where
  eq_map : accepted = all.map Prod.snd
  made : ∀ made ∈ all, Made config (fun file => .ofText u (s.sources file).text) s.known known made
  names : all.Pairwise NamesApart
  proposals : accepted.Pairwise ProposalsApart

section Accepts

variable {known : List Text} {accepted : List Proposal} {all : List (Renaming u × Proposal)}

theorem newText_isSome {r : Renaming u} {token : LosslessToken} (h : (r.newText token).isSome = true) :
    (symbolOf u token).isSome = true := by
  unfold Renaming.newText at h
  split at h
  · rename_i hsymbol
    rw [hsymbol]
    rfl
  · cases h

theorem Accepts.editsTokens (h : Accepts config s known accepted all) :
    EditsTokens u (fun file => .ofText u (s.sources file).text) (accepted.flatMap Proposal.edits) := by
  have hmade (proposal : Proposal) (hproposal : proposal ∈ accepted) :
      EditsTokens u (fun file => .ofText u (s.sources file).text) proposal.edits := by
    rw [h.eq_map] at hproposal
    obtain ⟨made, hmade, rfl⟩ := List.mem_map.1 hproposal
    rw [(h.made made hmade).edits]
    exact editsTokens_editsAt config.nodup (index_textIn s)
      fun _ => newText_isSome
  refine ⟨?_, fun edit hedit => ?_, fun edit hedit => ?_⟩
  · rw [List.pairwise_flatMap]
    exact ⟨fun proposal hproposal => (hmade proposal hproposal).apart, h.proposals⟩
  · obtain ⟨proposal, hproposal, hedit⟩ := List.mem_flatMap.1 hedit
    exact (hmade proposal hproposal).token edit hedit
  · obtain ⟨proposal, hproposal, hedit⟩ := List.mem_flatMap.1 hedit
    exact (hmade proposal hproposal).moveTo edit hedit

/-- **The edits of accepted proposals rename symbols.** -/
theorem Accepts.renamedSymbols_eq (h : Accepts config s known accepted all) {file : Text} (hfile : file ∈ config.files) :
    renamedSymbols u (accepted.flatMap Proposal.edits) file (.ofText u (s.sources file).text) =
      (symbolsIn u s file).map (Option.map (renameSymbol all)) := by
  have htokens := h.editsTokens
  -- the edit of a token is made by a renaming of its symbol
  have hmade {token : LosslessToken} (htoken : token ∈ (SourceIndex.ofText u (s.sources file).text).significant)
      {edit : FileEdit} (hedit : editAt (accepted.flatMap Proposal.edits) file token = some edit) :
      ∃ made ∈ all, symbolOf u token = some made.1.symbol := by
    obtain ⟨hmem, hin, hstart, hstop⟩ := of_editAt hedit
    obtain ⟨proposal, hproposal, hmem⟩ := List.mem_flatMap.1 hmem
    rw [h.eq_map] at hproposal
    obtain ⟨made, hall, rfl⟩ := List.mem_map.1 hproposal
    rw [(h.made made hall).edits] at hmem
    obtain ⟨file', -, token', htoken', replacement, hnew, rfl⟩ := mem_editsAt.1 hmem
    dsimp only at hin hstart hstop
    subst hin
    have hsymbol : (symbolOf u token').isSome = true := newText_isSome (r := made.1) (by rw [hnew]; rfl)
    obtain rfl := eq_of_span htoken' htoken hsymbol hstart hstop
    refine ⟨made, hall, ?_⟩
    unfold Renaming.newText at hnew
    split at hnew
    · assumption
    · cases hnew
  rw [renamedSymbols, symbolsIn, symbolsOf, List.map_map]
  refine List.map_congr_left fun token htoken => ?_
  rw [Function.comp_apply]
  cases hsymbol : symbolOf u token with
  | none =>
    cases hedit : editAt (accepted.flatMap Proposal.edits) file token with
    | none => rfl
    | some edit =>
      obtain ⟨made, -, hmade⟩ := hmade htoken hedit
      rw [hsymbol] at hmade
      cases hmade
  | some a =>
    rw [Option.map_some, renameSymbol]
    cases hfind : all.find? fun made => made.1.symbol = a with
    | none =>
      cases hedit : editAt (accepted.flatMap Proposal.edits) file token with
      | none => rfl
      | some edit =>
        obtain ⟨made, hall, hmade⟩ := hmade htoken hedit
        rw [hsymbol] at hmade
        cases hmade
        exact absurd (decide_eq_true rfl) (List.find?_eq_none.1 hfind made hall)
    | some made =>
      obtain ⟨hall, hsame⟩ := of_find hfind
      rw [← hsame] at hsymbol
      have hedit : editAt (accepted.flatMap Proposal.edits) file token =
          some { file, start := token.start, stop := token.stop, replacement := made.1.text token } := by
        refine (htokens.editAt_eq_some (index_textIn s)).2 ⟨?_, rfl, rfl, rfl⟩
        refine List.mem_flatMap.2 ⟨made.2, ?_, ?_⟩
        · rw [h.eq_map]
          exact List.mem_map.2 ⟨made, hall, rfl⟩
        · rw [(h.made made hall).edits]
          exact mem_editsAt.2 ⟨file, hfile, token, htoken, _, if_pos hsymbol, rfl⟩
      rw [hedit]
      exact congrArg (some ∘ Symbol.word) (made.1.upper_text token hsymbol)

variable (hcareful : ∀ proposal ∈ accepted, ∀ name, Unquotes proposal name →
  ¬IsWord u config s name ∧ (name ∈ s.known ∨ ¬MayBeDrawn name))

include hcareful

/-- A name that is not drawn is that of an accepted proposal. -/
theorem Accepts.kept (h : Accepts config s known accepted all) {made : Renaming u × Proposal} (hmade : made ∈ all)
    (hkept : made.1.drawn = false) :
    ¬IsWord u config s made.1.name ∧ (made.1.name ∈ s.known ∨ ¬MayBeDrawn made.1.name) := by
  obtain ⟨hrule, htag⟩ := (h.made made hmade).kept hkept
  refine hcareful made.2 ?_ _ ⟨hrule, htag, (made.1.plain hkept).2⟩
  rw [h.eq_map]
  exact List.mem_map.2 ⟨made, hmade, rfl⟩

/-- **Renamed symbols stay apart.** -/
theorem Accepts.injective (h : Accepts config s known accepted all) (hknows : Knows u config s) {a b : Symbol}
    {file file' : Text} (hfile : file ∈ config.files) (hfile' : file' ∈ config.files)
    (ha : some a ∈ symbolsIn u s file) (hb : some b ∈ symbolsIn u s file') :
    renameSymbol all a = renameSymbol all b ↔ a = b := by
  -- a new name is no word of the texts
  have hnew (made : Renaming u × Proposal) (hmade : made ∈ all) : ¬IsWord u config s made.1.name := by
    cases hdrawn : made.1.drawn with
    | true =>
      obtain ⟨hunknown, hform, -⟩ := (h.made made hmade).drawn hdrawn
      intro hword
      rcases hknows _ hword with hknown | hform'
      · exact hunknown hknown
      · exact hform' hform
    | false => exact (h.kept hcareful hmade hdrawn).1
  have hnames (made made' : Renaming u × Proposal) (hmade : made ∈ all) (hmade' : made' ∈ all)
      (hname : made.1.name = made'.1.name) : made.1.symbol = made'.1.symbol := by
    have hmixed (made made' : Renaming u × Proposal) (hmade : made ∈ all) (hmade' : made' ∈ all)
        (hdrawn : made.1.drawn = true) (hkept : made'.1.drawn = false) : made.1.name ≠ made'.1.name := by
      obtain ⟨hunknown, hform, -⟩ := (h.made made hmade).drawn hdrawn
      intro hname
      rcases (h.kept hcareful hmade' hkept).2 with hknown | hform'
      · exact hunknown (hname ▸ hknown)
      · exact hform' (hname ▸ hform)
    cases hdrawn : made.1.drawn with
    | true =>
      cases hdrawn' : made'.1.drawn with
      | true =>
        rcases pairwise_cases h.names hmade hmade' with heq | hapart | hapart
        · rw [heq]
        · exact absurd hname (hapart hdrawn hdrawn')
        · exact absurd hname.symm (hapart hdrawn' hdrawn)
      | false => exact absurd hname (hmixed made made' hmade hmade' hdrawn hdrawn')
    | false =>
      cases hdrawn' : made'.1.drawn with
      | true => exact absurd hname.symm (hmixed made' made hmade' hmade hdrawn' hdrawn)
      | false => rw [(made.1.plain hdrawn).1, (made'.1.plain hdrawn').1, hname]
  constructor
  · intro heq
    unfold renameSymbol at heq
    split at heq
    · rename_i made hfind
      obtain ⟨hmade, hsame⟩ := of_find hfind
      split at heq
      · rename_i made' hfind'
        obtain ⟨hmade', hsame'⟩ := of_find hfind'
        rw [← hsame, ← hsame']
        exact hnames made made' hmade hmade' (Symbol.word.inj heq)
      · rw [← heq] at hb
        exact absurd ⟨file', hfile', hb⟩ (hnew made hmade)
    · split at heq
      · rename_i made' hfind'
        rw [heq] at ha
        exact absurd ⟨file, hfile, ha⟩ (hnew made' (of_find hfind').1)
      · exact heq
  · exact congrArg _

/-- Among the renamed words, what is not known is never drawn. -/
theorem Accepts.knows (h : Accepts config s known accepted all) (hknows : Knows u config s) (hgrown : s.known ⊆ known)
    {a : Symbol} {file word : Text} (hfile : file ∈ config.files) (ha : some a ∈ symbolsIn u s file)
    (hword : renameSymbol all a = .word word) : word ∈ known ∨ ¬MayBeDrawn word := by
  unfold renameSymbol at hword
  split at hword
  · rename_i made hfind
    have hmade := (of_find hfind).1
    obtain rfl := Symbol.word.inj hword
    cases hdrawn : made.1.drawn with
    | true => exact .inl ((h.made made hmade).drawn hdrawn).2.2
    | false => exact ((h.kept hcareful hmade hdrawn).2).imp_left (hgrown ·)
  · rw [hword] at ha
    exact (hknows word ⟨file, hfile, ha⟩).imp_left (hgrown ·)

end Accepts

/-! ## Rounds -/

theorem maskUnits_known {project : Project} {index : Text → SourceIndex} {errors : Errors}
    (h : maskUnits project index errors answer s = some s') : s'.known = s.known := by
  unfold maskUnits at h
  split at h
  · cases h
  · split at h
    · obtain ⟨culprit, -, h⟩ := Option.bind_eq_some_iff.1 h
      obtain ⟨unit, -, h⟩ := Option.bind_eq_some_iff.1 h
      cases h
      rfl
    · dsimp only at h
      split at h
      · cases h
      · cases h
        rfl

/-- **What a round does to the texts**: nothing, or it applies the renamings that are accepted. -/
theorem round_spec (h : (round (config.project u) s answer).next = some s') :
    s.known ⊆ s'.known ∧ (s'.sources = s.sources ∨ ∃ all : List (Renaming u × Proposal),
      Accepts config s s'.known (round (config.project u) s answer).accepted all ∧
        ∀ file, applyAll (s.sources file) (editsOf (round (config.project u) s answer).accepted file) =
          .ok (s'.sources file)) := by
  unfold round at h ⊢
  dsimp only at h ⊢
  split at h
  · cases h
  rename_i herrors
  simp only [herrors]
  obtain ⟨all, hall⟩ := @collect_spec u config (fun file => (config.project u).index (s.sources file).text) s.known
    config.order s.applied (errorsOf (config.project u) (fun file => (config.project u).index (s.sources file).text)
      answer).located
  split at h
  · refine ⟨?_, .inl ?_⟩
    · rw [maskUnits_known h]
      exact hall.grown
    · exact (maskUnits_sources h).1
  rename_i hproposals
  simp only [hproposals]
  split at h
  · cases h
  rename_i accepted haccepted
  have hmoves : ∀ proposal ∈ all.map Prod.snd, ∀ edit ∈ proposal.edits, edit.moveTo = none := by
    intro proposal hproposal edit hedit
    obtain ⟨made, hmade, rfl⟩ := List.mem_map.1 hproposal
    rw [(hall.made made hmade).edits] at hedit
    obtain ⟨_, -, _, -, _, -, rfl⟩ := mem_editsAt.1 hedit
    rfl
  have hspec := haccepted
  change nonOverlapping (collect (config.order.map (config.rule u)) _ _ _ _).proposals = some accepted at hspec
  rw [hall.proposals] at hspec
  have hown : ∀ proposal ∈ all.map Prod.snd, proposal.edits.Pairwise Separate := by
    intro proposal hproposal
    obtain ⟨made, hmade, rfl⟩ := List.mem_map.1 hproposal
    rw [(hall.made made hmade).edits]
    exact (editsTokens_editsAt config.nodup (index_textIn s) fun _ => newText_isSome).separate (index_textIn s)
  obtain ⟨hsub, hseparate⟩ := separate_nonOverlapping hown hspec
  have hapart : accepted.Pairwise ProposalsApart := by
    refine (List.pairwise_flatMap.1 hseparate).2.imp_of_mem ?_
    intro proposal proposal' hproposal hproposal' hbetween edit hedit edit' hedit' hfile
    have hsep := hbetween edit hedit edit' hedit' hfile
    rw [hmoves proposal (hsub.subset hproposal) edit hedit, hmoves proposal' (hsub.subset hproposal') edit' hedit'] at hsep
    exact hsep.1
  obtain ⟨all', hsub', rfl⟩ := List.sublist_map_iff.1 hsub
  have hknown : s'.known = (collect (config.order.map (config.rule u))
      (fun file => (config.project u).index (s.sources file).text) s.applied s.known
      (errorsOf (config.project u) (fun file => (config.project u).index (s.sources file).text) answer).located).known := by
    dsimp only at h
    unfold applyRound at h
    split at h
    · cases h
      rfl
    · cases h
  rw [hknown]
  refine ⟨hall.grown, .inr ⟨all', ?_, ?_⟩⟩
  · exact ⟨rfl, fun made hmade => hall.made made (hsub'.subset hmade), hall.apart.sublist hsub', hapart⟩
  · intro file
    exact applyRound_sources h file

/-- **A careful round keeps symbols apart.** -/
theorem keptApart_round (hknows : Knows u config s) (hcareful : Careful u config (s, round (config.project u) s answer))
    (h : (round (config.project u) s answer).next = some s') :
    Knows u config s' ∧ KeptApart config.files (symbolsIn u s) (symbolsIn u s') := by
  obtain ⟨hgrown, hsame | ⟨all, haccepts, happly⟩⟩ := round_spec h
  · have hsymbols : symbolsIn u s' = symbolsIn u s := by
      funext file
      rw [symbolsIn, symbolsIn, hsame]
    rw [hsymbols]
    refine ⟨fun word hword => ?_, .refl _ _⟩
    rw [IsWord, hsymbols] at hword
    exact (hknows word hword).imp_left (hgrown ·)
  · have hsymbols {file : Text} (hfile : file ∈ config.files) :
        symbolsIn u s' file = (symbolsIn u s file).map (Option.map (renameSymbol all)) := by
      rw [← haccepts.renamedSymbols_eq hfile, ← hcareful.reads file hfile, symbolsIn,
        text_round haccepts.editsTokens (index_textIn s) rfl (happly file)]
    constructor
    · rintro word ⟨file, hfile, hword⟩
      rw [hsymbols hfile] at hword
      obtain ⟨symbol, hmem, hsymbol⟩ := List.mem_map.1 hword
      obtain ⟨a, rfl, hrename⟩ := Option.map_eq_some_iff.1 hsymbol
      exact haccepts.knows hcareful.apart hknows hgrown hfile hmem hrename
    · intro file hfile file' hfile' i j a b ha hb
      refine ⟨renameSymbol all a, renameSymbol all b, ?_, ?_, ?_⟩
      · rw [hsymbols hfile, List.getElem?_map, ha]
        rfl
      · rw [hsymbols hfile', List.getElem?_map, hb]
        rfl
      · exact haccepts.injective hcareful.apart hknows hfile hfile' (List.mem_of_getElem? ha) (List.mem_of_getElem? hb)

/-- A run that starts from a state which knows its words keeps symbols apart. -/
theorem keptApart_rounds (hknows : Knows u config s) {i : ℕ} {step : Normalizing × Round}
    (hstep : (rounds (config.project u) s answers)[i]? = some step)
    (hcareful : ∀ earlier ∈ (rounds (config.project u) s answers).take i, Careful u config earlier) :
    KeptApart config.files (symbolsIn u s) (symbolsIn u step.1) := by
  induction answers generalizing s i with
  | nil => cases hstep
  | cons answer answers ih =>
    cases i with
    | zero =>
      cases hstep
      exact .refl _ _
    | succ i =>
      rw [rounds] at hstep hcareful
      rw [List.getElem?_cons_succ] at hstep
      rw [List.take_succ_cons] at hcareful
      split at hstep
      · rename_i s' hnext
        rw [hnext] at hcareful
        obtain ⟨hknows', hkept⟩ := keptApart_round hknows (hcareful _ List.mem_cons_self) hnext
        exact hkept.trans (ih hknows' hstep fun earlier hearlier => hcareful _ (List.mem_cons_of_mem _ hearlier))
      · cases hstep

variable (u config) in
/-- The start of a run: the names of the files are known, and those of other sources. -/
def start (sources : Text → EditableSource) (extra : List Text) : Normalizing where
  sources := sources
  known := knownNames (fun file => .ofText u (sources file).text) config.files extra

theorem knows_start (sources : Text → EditableSource) (extra : List Text) :
    Knows u config (start u config sources extra) := by
  rintro word ⟨file, hfile, hword⟩
  obtain ⟨token, htoken, hsymbol⟩ := List.mem_map.1 hword
  obtain ⟨hisWord, rfl⟩ := symbolOf_eq_word.1 hsymbol
  refine .inl (List.mem_append_left _ (List.mem_flatMap.2 ⟨file, hfile, List.mem_map.2 ⟨token, ?_, rfl⟩⟩))
  exact List.mem_filter.2 ⟨List.mem_of_mem_filter htoken, hisWord⟩

end Runs

/-! ## Two runs -/

instance {u : UnicodeData} {config : Config} {s : Normalizing} {word : Text} : Decidable (IsWord u config s word) :=
  inferInstanceAs (Decidable (∃ file ∈ config.files, some (.word word) ∈ symbolsIn u s file))

instance {u : UnicodeData} {config : Config} {step : Normalizing × Round} : Decidable (Careful u config step) :=
  decidable_of_iff
    ((∀ proposal ∈ step.2.accepted, proposal.rule = quotedIdentifierId ∧ isPlain proposal.key.tag = true →
      ¬IsWord u config step.1 proposal.key.tag ∧ (proposal.key.tag ∈ step.1.known ∨ ¬MayBeDrawn proposal.key.tag)) ∧
    ∀ file ∈ config.files,
      symbolsOf u (.ofText u (renamedText (step.2.accepted.flatMap Proposal.edits) file
        (.ofText u (step.1.sources file).text))) =
      renamedSymbols u (step.2.accepted.flatMap Proposal.edits) file (.ofText u (step.1.sources file).text))
    ⟨fun h => ⟨fun proposal hproposal _ hname => hname.2.1 ▸ h.1 proposal hproposal ⟨hname.1, hname.2.1 ▸ hname.2.2⟩, h.2⟩,
      fun h => ⟨fun proposal hproposal hname => h.apart proposal hproposal _ ⟨hname.1, rfl, hname.2⟩, h.reads⟩⟩

/-- A project of one file, whose dialect takes OVERRIDE for an identifier. -/
def oneFile : Config where
  files := ["main.st".toList]
  identifierWords := ["OVERRIDE".toList]
  standardNames := []
  collision _ := none
  order := [.keyword, .quoted]
  nodup := List.nodup_singleton _

/-- Errors of the check in the first line of the file. -/
def reporting (errors : List (String × ℕ)) : Answer where
  check :=
    { returncode := 1
      diagnostics := errors.map fun error =>
        { isError := true, code := error.1.toList, file := some "main.st".toList, line := 1, column := error.2 }
      panic := false }
  generated := { returncode := 0, diagnostics := [], panic := false }
  irWritten := true
  panics _ := false

def oneFileRun (text : String) (errors : List (String × ℕ)) : List (Normalizing × Round) :=
  rounds (oneFile.project asciiData) (start asciiData oneFile (fun _ => .ofText text.toList) [])
    [reporting errors, reporting []]

/-- A keyword and a quoted name that is no identifier. -/
def keywordAndQuoted : List (Normalizing × Round) :=
  oneFileRun "PROGRAM P VAR Override : INT; END_VAR override := \"a b\"; END_PROGRAM" [("E007", 15), ("E048", 51)]

/-- A quoted name beside a variable of that name. -/
def quotedAndVariable : List (Normalizing × Round) :=
  oneFileRun "PROGRAM P VAR motor : INT; END_VAR motor := \"Motor\".speed; END_PROGRAM" [("E048", 45)]

end SemantiST.Intake.Naming
