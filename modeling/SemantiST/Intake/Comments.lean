import SemantiST.Intake.Members
import SemantiST.Lib.Replace

/-!
# Comments that rules write

`as_comment` (`normalize/rules/codesys.py`) and the header comment of `PropertyAccessors`
(`normalize/rules/structure.py`) wrap a part of a source.  Comments nest, so both ends of those that are
in it already must be torn apart.
-/

namespace SemantiST.Intake

open Lib

/-! ## Wrapping -/

/-- `text.replace("(*", "( *")` -/
def tearOpeners (text : Text) : Text := replaceAll "(*".toList "( *".toList text

/-- `text.replace("*)", "* )")` -/
def tearClosers (text : Text) : Text := replaceAll "*)".toList "* )".toList text

def wrap (text : Text) : Text := "(* ".toList ++ text ++ " *)".toList

/-- `as_comment` -/
def asComment (text : Text) : Text := wrap (tearClosers (tearOpeners text))

/-- The comment that `PropertyAccessors` makes of a property header. -/
def headerComment (text : Text) : Text := wrap (tearClosers text)

/-! ## `PropertyAccessors` -/

/-- `index.text[start:stop]` -/
def SourceIndex.slice (index : SourceIndex) (start stop : ℕ) : Text := (index.text.drop start).take (stop - start)

/-- The diagnostic can point at the word PROPERTY or just after its header. -/
def headerBefore (tokens : List LosslessToken) (line : ℕ) : ℕ → ℕ → ℕ
  | _, 0 => 0
  | 0, i => i
  | fuel + 1, i + 1 =>
    if tokens[i + 1]?.any fun token => token.upper ≠ "PROPERTY".toList ∧ line ≤ token.line + 1 then
      headerBefore tokens line fuel i
    else i + 1

/-- The edits of the accessors; `inside` is the word that ends the current one. -/
def accessorEdits (file name type : Text) : ℕ → Option Text → List LosslessToken → Option (List FileEdit)
  | _, _, [] => none
  | accessors, inside, token :: rest =>
    let edit := fun replacement : Text => ({ file, start := token.start, stop := token.stop, replacement } : FileEdit)
    match inside with
    | none =>
      if Among token.upper ["GET", "SET"] then do
        let keyword := if token.upper = "GET".toList then "PROPERTY_GET " else "PROPERTY_SET "
        let edits ← accessorEdits file name type (accessors + 1) (some ("END_".toList ++ token.upper)) rest
        return edit (keyword.toList ++ name ++ " : ".toList ++ type) :: edits
      else if Among token.upper ["END_PROPERTY", "ENDPROPERTY"] then
        if accessors = 0 then none else some [edit (wrap token.text)]
      else none
    | some word =>
      if token.upper = word then do
        return edit "END_PROPERTY".toList :: (← accessorEdits file name type accessors none rest)
      else accessorEdits file name type accessors inside rest

/-- The words that end a property header. -/
def endsHeader (token : LosslessToken) : Bool :=
  Among token.upper ["GET", "SET", "END_PROPERTY", "ENDPROPERTY"] || Among token.word varBlocks

def propertyAccessorsId : Text := "property-accessors".toList

/-- `PropertyAccessors.propose` -/
def proposePropertyAccessors (context : RuleContext) (file : Text) (located : Located) : Option Proposal := do
  let token ← located.token
  let index := context.index file
  let tokens := index.significant
  let first ← (tokens.drop (headerBefore tokens token.line 8 (index.significantIndex token.start))).head?
  let rest := tokens.drop (headerBefore tokens token.line 8 (index.significantIndex token.start) + 1)
  guard (first.upper = "PROPERTY".toList)
  match dropModifierWords rest with
  | name :: colon :: typed =>
    guard (name.isWord ∧ colon.Is ":")
    let header := typed.takeWhile fun token => !endsHeader token
    let behind := typed.dropWhile fun token => !endsHeader token
    let last := header.getLast?.getD colon
    let accessor ← behind.head?
    guard (Among accessor.upper ["GET", "SET"])
    let type := index.slice (typed.head?.getD colon).start last.stop
    let edits ← accessorEdits file name.text type 0 none behind
    return {
      rule := propertyAccessorsId
      key := { rule := propertyAccessorsId, file, offset := first.start }
      edits := {
        file
        start := first.start
        stop := last.stop
        replacement := headerComment (index.slice first.start last.stop) } :: edits }
  | _ => none
where
  /-- The tokens behind the access modifiers that are followed by a word. -/
  dropModifierWords : List LosslessToken → List LosslessToken
  | token :: next :: rest =>
    if Among token.upper modifiers && next.isWord then dropModifierWords (next :: rest) else token :: next :: rest
  | tokens => tokens

/-! ## Reading a comment -/

/-- The first token of a comment and what follows it is the comment. -/
def ReadAsComment (u : UnicodeData) (comment follow : Text) : Prop :=
  ((tokenizeLossless u (comment ++ follow)).head?.map fun token => (token.kind, token.start, token.stop)) =
    some (.comment, 0, comment.length)

instance {u : UnicodeData} {comment follow : Text} : Decidable (ReadAsComment u comment follow) :=
  inferInstanceAs (Decidable (_ = _))

/-- Neighbours that open a comment. -/
abbrev Opens (c d : Char) : Prop := c = '(' ∧ d = '*'

/-- Neighbours that close one. -/
abbrev Closes (c d : Char) : Prop := c = '*' ∧ d = ')'

section Scan

variable {u : UnicodeData} {text follow rest : Text} {prev before : Char} {i n unclosed : ℕ}

theorem lt_of_blockCommentEnd {opener close : Char} (h : blockCommentEnd opener close unclosed prev i text = some n) :
    i < n := by
  induction text generalizing unclosed prev i with
  | nil => cases h
  | cons c rest ih =>
    rw [blockCommentEnd] at h
    split at h
    · exact Nat.lt_of_succ_lt (ih h)
    split at h
    · split at h
      · cases h
        exact Nat.lt_succ_self i
      · exact Nat.lt_of_succ_lt (ih h)
    · exact Nat.lt_of_succ_lt (ih h)

/-- **Without closers the scanner comes to the end of a text, deeper by every opener in it.**  The character it
remembers is the last one, unless an opener ended there. -/
theorem blockCommentEnd_append (hprev : prev = before ∨ (before = '*' ∧ prev = ' '))
    (hclose : (before :: text).IsChain fun c d => ¬Closes c d) :
    ∃ deeper prev', (deeper = 0 ↔ (before :: text).IsChain fun c d => ¬Opens c d) ∧
      (prev' = text.getLastD before ∨ (text.getLastD before = '*' ∧ prev' = ' ')) ∧
        ∀ unclosed i rest, blockCommentEnd '(' ')' unclosed prev i (text ++ rest) =
          blockCommentEnd '(' ')' (unclosed + deeper) prev' (i + text.length) rest := by
  induction text generalizing prev before with
  | nil => exact ⟨0, prev, by simp, hprev, fun _ _ _ => rfl⟩
  | cons c text ih =>
    rw [List.isChain_cons_cons] at hclose
    rw [List.getLastD_cons, List.isChain_cons_cons]
    by_cases hopen : c = '*' ∧ prev = '('
    · obtain ⟨rfl, rfl⟩ := hopen
      have hbefore : before = '(' := by
        rcases hprev with h | h
        · exact h.symm
        · exact absurd h.2 (by decide)
      obtain ⟨deeper, prev', -, hlast, hscan⟩ :=
        ih (.inr ⟨rfl, rfl⟩ : ' ' = '*' ∨ ('*' = '*' ∧ ' ' = ' ')) hclose.2
      refine ⟨deeper + 1, prev', ?_, hlast, fun unclosed i rest => ?_⟩
      · simp [hbefore]
      · rw [List.cons_append, blockCommentEnd, if_pos ⟨rfl, rfl⟩, hscan, List.length_cons]
        congr 1 <;> omega
    · have hshut : ¬(c = ')' ∧ prev = '*') := by
        rintro ⟨rfl, rfl⟩
        rcases hprev with h | h
        · exact hclose.1 ⟨h.symm, rfl⟩
        · exact absurd h.2 (by decide)
      have hnot : ¬Opens before c := by
        rintro ⟨rfl, rfl⟩
        rcases hprev with h | h
        · exact hopen ⟨rfl, h⟩
        · exact absurd h.1 (by decide)
      obtain ⟨deeper, prev', hdeeper, hlast, hscan⟩ :=
        ih (.inl rfl : c = c ∨ (c = '*' ∧ c = ' ')) hclose.2
      refine ⟨deeper, prev', ?_, hlast, fun unclosed i rest => ?_⟩
      · rw [hdeeper]
        simp [hnot]
      · rw [List.cons_append, blockCommentEnd, if_neg hopen, if_neg hshut, hscan, List.length_cons]
        congr 1
        omega

theorem isChain_padded {R : Char → Char → Prop} (hleft : ∀ c, R ' ' c) (hright : ∀ c, R c ' ') :
    (' ' :: ' ' :: (text ++ [' '])).IsChain R ↔ text.IsChain R := by
  rw [List.isChain_cons_cons, List.isChain_cons, List.isChain_append]
  simp [hleft, hright]

theorem head_tokenizeLossless (c : Char) : ((tokenizeLossless u (c :: text)).head?.map fun token =>
    (token.kind, token.start, token.stop)) = some ((scan u (c :: text)).1, 0, (scan u (c :: text)).2) := by
  simp [tokenizeLossless, tokensFrom]

theorem scan_opener : scan u ('(' :: '*' :: text) = (match blockCommentEnd '(' ')' 1 ' ' 2 text with
    | some n => (.comment, n)
    | none => (.error, 2)) := rfl

/-- The end of a wrapper, where so many comments are open in it. -/
theorem blockCommentEnd_closer (deeper : ℕ) :
    blockCommentEnd '(' ')' (1 + deeper) ' ' i ('*' :: ')' :: text) =
      if deeper = 0 then some (i + 2) else blockCommentEnd '(' ')' deeper ')' (i + 2) text := by
  simp only [blockCommentEnd, add_assoc, Nat.add_eq_left, Nat.add_sub_cancel_left]
  rfl

/-- **A text without closers is read in its comment if and only if it has no openers.** -/
theorem readAsComment_wrap (hclose : text.IsChain fun c d => ¬Closes c d) (follow : Text) :
    ReadAsComment u (wrap text) follow ↔ text.IsChain fun c d => ¬Opens c d := by
  have hspaced : ∀ c, ¬Closes ' ' c ∧ ¬Closes c ' ' ∧ ¬Opens ' ' c ∧ ¬Opens c ' ' := by
    intro c
    refine ⟨?_, ?_, ?_, ?_⟩ <;> rintro ⟨h, h'⟩
    · exact absurd h (by decide)
    · exact absurd h' (by decide)
    · exact absurd h (by decide)
    · exact absurd h' (by decide)
  obtain ⟨deeper, prev', hdeeper, hlast, hscan⟩ := blockCommentEnd_append
    (.inl rfl : ' ' = ' ' ∨ (' ' = '*' ∧ ' ' = ' '))
    ((isChain_padded (fun c => (hspaced c).1) fun c => (hspaced c).2.1).2 hclose)
  rw [isChain_padded (fun c => (hspaced c).2.2.1) fun c => (hspaced c).2.2.2] at hdeeper
  have hprev : prev' = ' ' := by
    rw [List.getLastD_cons] at hlast
    simpa using hlast
  have hwrap : wrap text ++ follow = '(' :: '*' :: ((' ' :: (text ++ [' '])) ++ '*' :: ')' :: follow) := by
    simp [wrap]
  have hlength : (wrap text).length = 2 + (' ' :: (text ++ [' '])).length + 2 := by
    simp [wrap]
    omega
  rw [← hdeeper, ReadAsComment, hwrap, head_tokenizeLossless, scan_opener, hscan, hprev, blockCommentEnd_closer,
    ← hlength]
  by_cases hzero : deeper = 0
  · simp [hzero]
  · rw [if_neg hzero]
    refine iff_of_false ?_ hzero
    cases hend : blockCommentEnd '(' ')' deeper ')' (wrap text).length follow with
    | none => simp
    | some n =>
      have hlt := lt_of_blockCommentEnd hend
      simp
      omega

end Scan

/-! ## What the rules write -/

variable {u : UnicodeData}

theorem isChain_of_forall {R : Char → Char → Prop} (h : ∀ c d, R c d) (text : Text) : text.IsChain R :=
  List.isChain_iff_forall_rel_of_append_cons_cons.2 fun c d _ _ _ => h c d

/-- **A text in which both ends of comments are torn apart is one comment.** -/
theorem readAsComment_asComment (text follow : Text) : ReadAsComment u (asComment text) follow := by
  have hneither : (tearClosers (tearOpeners text)).IsChain fun c d => ¬Closes c d ∧ ¬Opens c d := by
    refine (isChain_tear (by decide) (by decide) (by decide)).2 ?_
    refine (isChain_tear (by decide) (by decide) (by decide)).2 (isChain_of_forall ?_ text)
    intro c d
    tauto
  exact (readAsComment_wrap (hneither.imp fun _ _ h => h.1) follow).2 (hneither.imp fun _ _ h => h.2)

/-- **A header is one comment if and only if no comment opens in it.** -/
theorem readAsComment_headerComment (text follow : Text) :
    ReadAsComment u (headerComment text) follow ↔ ¬"(*".toList <:+: text := by
  have hclose : (tearClosers text).IsChain fun c d => ¬Closes c d := by
    refine (isChain_tear (by decide) (by decide) (by decide)).2 (isChain_of_forall ?_ text)
    exact fun c d => Decidable.em (Closes c d)
  have hopen : (tearClosers text).IsChain (fun c d => ¬Opens c d) ↔
      text.IsChain fun c d => Closes c d ∨ ¬Opens c d :=
    isChain_tear (by decide) (by decide) (by decide)
  have hnot : (fun c d => Closes c d ∨ ¬Opens c d) = fun c d => ¬Opens c d := by
    funext c d
    refine propext ⟨?_, .inr⟩
    rintro (⟨rfl, rfl⟩ | h)
    · decide
    · exact h
  rw [headerComment, readAsComment_wrap hclose, hopen, hnot]
  exact isChain_not_pair

/-- **What the rules wrap is one comment for every text and whatever follows it, but for a property header in which a
comment opens.** -/
theorem comment_wrapping (u : UnicodeData) (text follow : Text) :
    ReadAsComment u (asComment text) follow ∧
      (ReadAsComment u (headerComment text) follow ↔ ¬"(*".toList <:+: text) :=
  ⟨readAsComment_asComment text follow, readAsComment_headerComment text follow⟩

/-- **The first edit of a property makes a comment of the header that it replaces.** -/
theorem headerComment_of_propose {context : RuleContext} {file : Text} {located : Located} {proposal : Proposal}
    (h : proposePropertyAccessors context file located = some proposal) :
    ∃ edit edits, proposal.edits = edit :: edits ∧ edit.file = file ∧
      edit.replacement = headerComment ((context.index file).slice edit.start edit.stop) := by
  simp only [proposePropertyAccessors, bind, Option.bind_eq_some_iff] at h
  obtain ⟨token, -, first, -, _, -, h⟩ := h
  split at h
  · simp only [Option.bind_eq_some_iff] at h
    obtain ⟨_, -, accessor, -, _, -, edits, -, h⟩ := h
    cases h
    exact ⟨_, edits, rfl, rfl, rfl⟩
  · cases h

/-- A property whose header has a comment. -/
def commentedProperty : Text := "PROPERTY Level (* in m *) : REAL GET Level := x; END_GET END_PROPERTY".toList

def commentedHeader : Text := "PROPERTY Level (* in m *) : REAL".toList

def proposedForCommented : Option Proposal :=
  proposePropertyAccessors ⟨fun _ => .ofText asciiData commentedProperty, []⟩ []
    (locate ⟨true, "E007".toList, none, 1, 1⟩ (.ofText asciiData commentedProperty))

/-- **The comment in a header opens one that nothing closes.** -/
theorem not_readAsComment_commentedHeader :
    (proposedForCommented.bind fun proposal => proposal.edits.head?.map FileEdit.replacement) =
        some (headerComment commentedHeader) ∧
      ¬ReadAsComment asciiData (headerComment commentedHeader)
        " PROPERTY_GET Level : REAL Level := x; END_PROPERTY".toList := by
  -- the kernel reads a list of characters faster than a literal
  unfold proposedForCommented commentedProperty commentedHeader
  rw [show String.toList "PROPERTY Level (* in m *) : REAL GET Level := x; END_GET END_PROPERTY" = _ from String.toList_ofList,
    show String.toList "PROPERTY Level (* in m *) : REAL" = _ from String.toList_ofList,
    show String.toList " PROPERTY_GET Level : REAL Level := x; END_PROPERTY" = _ from String.toList_ofList]
  decide +kernel

end SemantiST.Intake
