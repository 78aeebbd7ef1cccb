import SemantiST.Intake.Normalize
import SemantiST.Lib.Fresh

/-!
# Renaming rules

`KeywordIdentifierRename` and `StandardNameCollisionRename` (`rules/common.py`) and `QuotedIdentifier`
(`rules/scl.py`): every occurrence of a symbol gets one new name, in all files.
-/

namespace SemantiST.Intake.Naming

open Lib

/-! ## Fresh names -/

/-- The names that `fresh_name` tries in turn. -/
def tried (base suffix : Text) : ℕ → Text
  | 0 => base ++ suffix
  | n + 1 => base ++ suffix ++ decimal (n + 2)

/-- `fresh_name`: the name, and the known names with it; the names tried are ASCII. -/
def freshName (context : RuleContext) (base suffix : Text) : Text × List Text :=
  let candidate := fun n => toAsciiUppercase (tried base suffix n)
  let name := tried base suffix (firstFree context.knownNames candidate context.knownNames.length 0)
  (name, context.knownNames ++ [toAsciiUppercase name])

/-! ## Edits -/

section Rules

variable (u : UnicodeData)
-- the files of the project, in order
variable (files : List Text)

/-- The edits that give tokens new texts. -/
def editsAt (index : Text → SourceIndex) (newText : LosslessToken → Option Text) : List FileEdit :=
  files.flatMap fun file => (index file).significant.filterMap fun token =>
    (newText token).map fun replacement => { file, start := token.start, stop := token.stop, replacement }

/-- `rename_everywhere`: each occurrence keeps its case. -/
def renameEverywhere (context : RuleContext) (word newName : Text) : List FileEdit :=
  editsAt files context.index fun token =>
    if token.isWord ∧ token.upper = word then some (token.text ++ newName.drop word.length) else none

/-- A key `(id, name)`, which holds no offset. -/
def nameKey (rule name : Text) : OffsetKey := { rule, file := [], offset := 0, tag := name }

/-- The proposal of a rule that renames a word. -/
def proposeRename (rule : Text) (context : RuleContext) (word : Text) : Proposal × List Text :=
  let (newName, known) := freshName context word "__".toList
  ({ rule, key := nameKey rule word, edits := renameEverywhere files context word newName }, known)

/-! ## The rules -/

def keywordIdentifierRenameId : Text := "keyword-identifier-rename".toList

def keywordIdentifierRename (identifierWords : List Text) : Rule where
  codes := ["E007".toList]
  propose context _ located :=
    match located.token with
    | some token =>
      if token.kind = .keyword ∧ token.upper ∈ identifierWords then
        (proposeRename files keywordIdentifierRenameId context token.upper).map some id
      else (none, context.knownNames)
    | none => (none, context.knownNames)

/-- What the message of a diagnostic says: a name that is a duplicate, or that of a built-in type. -/
structure Collision where
  name : Text
  builtin : Bool

def standardNameCollisionRenameId : Text := "standard-name-collision-rename".toList

def standardNameCollisionRename (standardNames : List Text) (collision : Diagnostic → Option Collision) : Rule where
  codes := ["E004".toList]
  propose context _ located :=
    match collision located.diagnostic with
    | some found =>
      let word := toAsciiUppercase found.name
      if (word ∈ standardNames ∨ found.builtin = true) ∧ located.token.any (·.upper = word) then
        (proposeRename files standardNameCollisionRenameId context word).map some id
      else (none, context.knownNames)
    | none => (none, context.knownNames)

/-- The text between the quotes. -/
def unquoted (token : LosslessToken) : Text := token.text.tail.dropLast

/-- `IDENTIFIER`: a final line feed is not seen. -/
def isIdentifier (s : Text) : Bool :=
  let s := if s.getLast? = some '\n' then s.dropLast else s
  s.head?.any (fun c => c.isAlpha || c = '_') && s.all isIdentChar

/-- The quotes of the name just go. -/
def isPlain (symbol : Text) : Bool := isIdentifier symbol && !Among (toAsciiUppercase symbol) rustyKeywords

/-- The identifier that a name is mangled to, without its suffix. -/
def mangledBase (symbol : Text) : Text :=
  let base := symbol.map fun c => if isIdentChar c then c else '_'
  let base := if base = [] then "S".toList else base
  if base.head?.any fun c => c.isAlpha || c = '_' then base else "S_".toList ++ base

def quotedIdentifierId : Text := "scl-quoted-identifier".toList

def quotedIdentifier : Rule where
  codes := ["E007".toList, "E006".toList, "E048".toList, "E052".toList]
  propose context _ located :=
    match located.token with
    | some token =>
      if token.kind = .wstring then
        let symbol := unquoted token
        let (target, known) :=
          if isPlain symbol then (symbol, context.knownNames) else freshName context (mangledBase symbol) "__Q".toList
        (some {
          rule := quotedIdentifierId
          key := nameKey quotedIdentifierId (u.upperText symbol)
          edits := editsAt files context.index fun other =>
            if other.kind = .wstring ∧ u.upperText (unquoted other) = u.upperText symbol then some target else none },
          known)
      else (none, context.knownNames)
    | none => (none, context.knownNames)

end Rules

inductive RuleName where
  | keyword | standard | quoted

/-- A project in which only these rules are tried. -/
structure Config where
  files : List Text
  identifierWords : List Text
  standardNames : List Text
  collision : Diagnostic → Option Collision
  order : List RuleName
  nodup : files.Nodup

namespace Config

variable (u : UnicodeData) (config : Config)

def rule : RuleName → Rule
  | .keyword => keywordIdentifierRename config.files config.identifierWords
  | .standard => standardNameCollisionRename config.files config.standardNames config.collision
  | .quoted => quotedIdentifier u config.files

def project : Project where
  files := config.files
  rules := config.order.map (config.rule u)
  index := SourceIndex.ofText u

end Config

/-- `_known_names`: the words of the files and of other sources. -/
def knownNames (index : Text → SourceIndex) (files extra : List Text) : List Text :=
  files.flatMap (fun file => ((index file).tokens.filter LosslessToken.isWord).map LosslessToken.upper) ++ extra

/-! ## Symbols -/

/-- What an occurrence denotes, which is how it is spelled, ignoring case. -/
inductive Symbol where
  | word (upper : Text)
  | quoted (upper : Text)
deriving DecidableEq

def symbolOf (u : UnicodeData) (token : LosslessToken) : Option Symbol :=
  if token.isWord then some (.word token.upper)
  else if token.kind = .wstring then some (.quoted (u.upperText (unquoted token)))
  else none

/-- The symbols of the significant tokens of a text. -/
def symbolsOf (u : UnicodeData) (index : SourceIndex) : List (Option Symbol) := index.significant.map (symbolOf u)

section Symbols

variable {u : UnicodeData} {token : LosslessToken}

theorem symbolOf_eq_word {upper : Text} :
    symbolOf u token = some (.word upper) ↔ token.isWord = true ∧ token.upper = upper := by
  unfold symbolOf
  split
  · rename_i hword
    simp [hword]
  · rename_i hword
    split <;> simp [hword]

theorem symbolOf_eq_quoted {upper : Text} :
    symbolOf u token = some (.quoted upper) ↔ token.kind = .wstring ∧ u.upperText (unquoted token) = upper := by
  have hkind : token.kind = .wstring → token.isWord = false := by
    intro h
    rw [LosslessToken.isWord, h]
    rfl
  unfold symbolOf
  split
  · rename_i hword
    simp only [Option.some.injEq, reduceCtorEq, false_iff]
    rintro ⟨h, -⟩
    rw [hkind h] at hword
    cases hword
  · split
    · rename_i h
      simp [h]
    · rename_i h
      simp [h]

end Symbols

/-! ## Renamings -/

/-- A name that `fresh_name` may give: a suffix, and perhaps a number. -/
def MayBeDrawn (name : Text) : Prop :=
  "__".toList <:+ name.rdropWhile Char.isDigit ∨ "__Q".toList <:+ name.rdropWhile Char.isDigit

instance {name : Text} : Decidable (MayBeDrawn name) := inferInstanceAs (Decidable (_ ∨ _))

/-- All occurrences of a symbol get texts that are one name, ignoring case; the name is drawn, or it is that
of the symbol. -/
structure Renaming (u : UnicodeData) where
  symbol : Symbol
  name : Text
  text : LosslessToken → Text
  drawn : Bool
  upper_text : ∀ token, symbolOf u token = some symbol → toAsciiUppercase (text token) = name
  plain : drawn = false → symbol = .quoted name ∧ isPlain name = true

def Renaming.newText {u : UnicodeData} (r : Renaming u) (token : LosslessToken) : Option Text :=
  if symbolOf u token = some r.symbol then some (r.text token) else none

section Upper

variable {s : Text} {c : Char}

theorem toUpper_of_not_lower (h : ¬(97 ≤ c.toNat ∧ c.toNat ≤ 122)) : c.toUpper = c := by
  rw [← Char.toNat_inj, toNat_toUpper, if_neg h]

theorem isAlpha_iff : c.isAlpha = true ↔ (65 ≤ c.toNat ∧ c.toNat ≤ 90) ∨ (97 ≤ c.toNat ∧ c.toNat ≤ 122) := by
  have halpha : c.isAlpha = (c.isUpper || c.isLower) := rfl
  rw [halpha, Bool.or_eq_true]
  constructor
  · exact Or.imp isUpper_range isLower_range
  · rintro (h | h)
    · exact .inl (decide_eq_true h)
    · exact .inr (Bool.and_eq_true_iff.2 ⟨decide_eq_true h.1, decide_eq_true h.2⟩)

theorem isDigit_iff : c.isDigit = true ↔ 48 ≤ c.toNat ∧ c.toNat ≤ 57 :=
  ⟨isDigit_range, fun h => Bool.and_eq_true_iff.2 ⟨decide_eq_true h.1, decide_eq_true h.2⟩⟩

theorem toUpper_eq_iff_of_not_alpha {d : Char} (h : d.isAlpha = false) : c.toUpper = d ↔ c = d := by
  rw [← Char.toNat_inj, ← Char.toNat_inj, toNat_toUpper]
  have hd : ¬((65 ≤ d.toNat ∧ d.toNat ≤ 90) ∨ (97 ≤ d.toNat ∧ d.toNat ≤ 122)) := by
    rw [← isAlpha_iff, h]
    exact Bool.false_ne_true
  split <;> omega

theorem isAlpha_toUpper : c.toUpper.isAlpha = c.isAlpha := by
  rw [Bool.eq_iff_iff, isAlpha_iff, isAlpha_iff, toNat_toUpper]
  split <;> omega

theorem isDigit_toUpper : c.toUpper.isDigit = c.isDigit := by
  rw [Bool.eq_iff_iff, isDigit_iff, isDigit_iff, toNat_toUpper]
  split <;> omega

theorem isIdentChar_toUpper : isIdentChar c.toUpper = isIdentChar c := by
  have hunderscore : decide (c.toUpper = '_') = decide (c = '_') :=
    decide_eq_decide.2 (toUpper_eq_iff_of_not_alpha (by decide))
  rw [isIdentChar, isIdentChar, isAlpha_toUpper, isDigit_toUpper, hunderscore]

theorem toAsciiUppercase_idem : toAsciiUppercase (toAsciiUppercase s) = toAsciiUppercase s := by
  unfold toAsciiUppercase
  rw [List.map_map]
  refine List.map_congr_left fun c _ => ?_
  rw [Function.comp_apply]
  refine toUpper_of_not_lower ?_
  rw [toNat_toUpper]
  split <;> omega

theorem isIdentifier_toAsciiUppercase : isIdentifier (toAsciiUppercase s) = isIdentifier s := by
  have hlast : ((toAsciiUppercase s).getLast? = some '\n') ↔ s.getLast? = some '\n' := by
    unfold toAsciiUppercase
    rw [List.getLast?_map, Option.map_eq_some_iff]
    constructor
    · rintro ⟨c, hc, hupper⟩
      rwa [(toUpper_eq_iff_of_not_alpha (by decide)).1 hupper] at hc
    · intro h
      exact ⟨'\n', h, by decide⟩
  have hbody (s : Text) : ((toAsciiUppercase s).head?.any (fun c => c.isAlpha || c = '_') &&
      (toAsciiUppercase s).all isIdentChar) = (s.head?.any (fun c => c.isAlpha || c = '_') && s.all isIdentChar) := by
    have hunderscore (c : Char) : decide (c.toUpper = '_') = decide (c = '_') :=
      decide_eq_decide.2 (toUpper_eq_iff_of_not_alpha (by decide))
    unfold toAsciiUppercase
    rw [List.head?_map, Option.any_map, List.all_map]
    simp only [Function.comp_def, isAlpha_toUpper, hunderscore, isIdentChar_toUpper]
  unfold isIdentifier
  dsimp only
  by_cases h : s.getLast? = some '\n'
  · rw [if_pos (hlast.2 h), if_pos h]
    have hdrop : (toAsciiUppercase s).dropLast = toAsciiUppercase s.dropLast := List.map_dropLast.symm
    rw [hdrop]
    exact hbody _
  · rw [if_neg (fun h' => h (hlast.1 h')), if_neg h]
    exact hbody _

theorem isPlain_toAsciiUppercase : isPlain (toAsciiUppercase s) = isPlain s := by
  rw [isPlain, isPlain, isIdentifier_toAsciiUppercase, toAsciiUppercase_idem]

/-- A name whose quotes go is ASCII. -/
theorem upperText_of_isPlain {u : UnicodeData} (h : isPlain s = true) : u.upperText s = toAsciiUppercase s := by
  refine upperText_ascii fun c hc => ?_
  have hident (s : Text) (hs : s.all isIdentChar = true) : ∀ c ∈ s, c.toNat < 128 := by
    intro c hc
    have hchar := List.all_eq_true.1 hs c hc
    rw [isIdentChar, Bool.or_eq_true, Bool.or_eq_true, isAlpha_iff, isDigit_iff, decide_eq_true_eq] at hchar
    rcases hchar with (hchar | rfl) | hchar
    · omega
    · decide
    · omega
  rw [isPlain, Bool.and_eq_true, isIdentifier] at h
  have hall := (Bool.and_eq_true_iff.1 h.1).2
  split at hall
  · rename_i hlast
    rw [← List.dropLast_append_getLast? '\n' hlast] at hc
    rcases List.mem_append.1 hc with hc | hc
    · exact hident _ hall c hc
    · rw [List.mem_singleton.1 hc]
      decide
  · exact hident _ hall c hc

/-! ### Names that are drawn -/

theorem mayBeDrawn_append {base suffix digits : Text} (hsuffix : suffix = "__".toList ∨ suffix = "__Q".toList)
    (hdigits : ∀ c ∈ digits, c.isDigit = true) : MayBeDrawn (base ++ suffix ++ digits) := by
  have hlast : ∃ c, suffix.getLast? = some c ∧ c.isDigit = false := by
    rcases hsuffix with rfl | rfl
    · exact ⟨'_', rfl, rfl⟩
    · exact ⟨'Q', rfl, rfl⟩
  obtain ⟨c, hc, hdigit⟩ := hlast
  have hstem : (base ++ suffix ++ digits).rdropWhile Char.isDigit = base ++ suffix := by
    obtain ⟨front, rfl⟩ : ∃ front, suffix = front ++ [c] := ⟨_, (List.dropLast_append_getLast? c hc).symm⟩
    rw [List.rdropWhile, List.reverse_append, List.dropWhile_append_of_pos (by simpa using hdigits)]
    simp [hdigit]
  rw [MayBeDrawn, hstem]
  rcases hsuffix with rfl | rfl
  · exact .inl (List.suffix_append _ _)
  · exact .inr (List.suffix_append _ _)

theorem toAsciiUppercase_append {s' : Text} :
    toAsciiUppercase (s ++ s') = toAsciiUppercase s ++ toAsciiUppercase s' := List.map_append

theorem toAsciiUppercase_digits (h : ∀ c ∈ s, c.isDigit = true) : toAsciiUppercase s = s := by
  conv_rhs => rw [← List.map_id s]
  refine List.map_congr_left fun c hc => toUpper_of_not_lower ?_
  have hrange := isDigit_range (h c hc)
  omega

variable {base suffix : Text} {context : RuleContext}

/-- The part of a tried name behind its suffix. -/
theorem exists_digits (n : ℕ) : ∃ digits, tried base suffix n = base ++ suffix ++ digits ∧ ∀ c ∈ digits, c.isDigit = true := by
  cases n with
  | zero => exact ⟨[], (List.append_nil _).symm, fun c hc => by cases hc⟩
  | succ n => exact ⟨decimal (n + 2), rfl, fun c hc => isDigit_of_mem_decimal hc⟩

theorem mayBeDrawn_tried (hsuffix : suffix = "__".toList ∨ suffix = "__Q".toList) (n : ℕ) :
    MayBeDrawn (toAsciiUppercase (tried base suffix n)) := by
  obtain ⟨digits, htried, hdigits⟩ := @exists_digits base suffix n
  have hupper : toAsciiUppercase suffix = suffix := by
    rcases hsuffix with rfl | rfl <;> decide
  rw [htried, toAsciiUppercase_append, toAsciiUppercase_append, hupper, toAsciiUppercase_digits hdigits]
  exact mayBeDrawn_append hsuffix hdigits

theorem tried_injective : Function.Injective fun n => toAsciiUppercase (tried base suffix n) := by
  have hdecimal {m n : ℕ} (h : decimal m = decimal n) : m = n := by
    have hread := congrArg (readNumber decDigit 10) h
    rw [readNumber_decimal, readNumber_decimal] at hread
    exact Option.some.inj hread
  have hnumbered (n : ℕ) : toAsciiUppercase (tried base suffix (n + 1)) =
      toAsciiUppercase (base ++ suffix) ++ decimal (n + 2) := by
    rw [tried, toAsciiUppercase_append, toAsciiUppercase_digits fun c hc => isDigit_of_mem_decimal hc]
  intro m n h
  dsimp only at h
  cases m with
  | zero =>
    cases n with
    | zero => rfl
    | succ n =>
      rw [hnumbered, tried] at h
      exact absurd (List.self_eq_append_right.1 h) decimal_ne_nil
  | succ m =>
    cases n with
    | zero =>
      rw [hnumbered, tried] at h
      exact absurd (List.self_eq_append_right.1 h.symm) decimal_ne_nil
    | succ n =>
      rw [hnumbered, hnumbered] at h
      have hnumber := hdecimal (List.append_cancel_left h)
      omega

/-- **A fresh name is no known name**, and has the form of one. -/
theorem freshName_spec (context : RuleContext) (base : Text) (hsuffix : suffix = "__".toList ∨ suffix = "__Q".toList) :
    ∃ n, (freshName context base suffix).1 = tried base suffix n ∧
      toAsciiUppercase (tried base suffix n) ∉ context.knownNames ∧
        (freshName context base suffix).2 = context.knownNames ++ [toAsciiUppercase (tried base suffix n)] ∧
          MayBeDrawn (toAsciiUppercase (tried base suffix n)) :=
  ⟨_, rfl, firstFree_not_mem tried_injective 0, rfl, mayBeDrawn_tried hsuffix _⟩

end Upper

/-! ## What the rules propose -/

section Proposals

variable {u : UnicodeData} {config : Config} {context : RuleContext} {known : List Text} {proposal : Proposal}

/-- A proposal makes a renaming; its name is drawn and becomes a known one, or the quotes of a name go. -/
structure Makes (config : Config) (context : RuleContext) (known : List Text) (proposal : Proposal) (r : Renaming u) :
    Prop where
  edits : proposal.edits = editsAt config.files context.index r.newText
  drawn : r.drawn = true →
    r.name ∉ context.knownNames ∧ MayBeDrawn r.name ∧ known = context.knownNames ++ [r.name]
  kept : r.drawn = false →
    known = context.knownNames ∧ proposal.rule = quotedIdentifierId ∧ proposal.key.tag = r.name

theorem editsAt_congr {files : List Text} {index : Text → SourceIndex} {newText newText' : LosslessToken → Option Text}
    (h : ∀ token, newText token = newText' token) : editsAt files index newText = editsAt files index newText' := by
  rw [funext h]

theorem makes_proposeRename (rule word : Text) :
    ∃ r : Renaming u, Makes config context (proposeRename config.files rule context word).2
      (proposeRename config.files rule context word).1 r := by
  obtain ⟨n, hname, hnew, hknown, hdrawn⟩ := freshName_spec context word (.inl rfl : "__".toList = "__".toList ∨ _)
  obtain ⟨digits, htried, -⟩ := @exists_digits word "__".toList n
  have hdrop : (tried word "__".toList n).drop word.length = "__".toList ++ digits := by
    rw [htried, List.append_assoc, List.drop_left]
  refine ⟨{
    symbol := .word word
    name := toAsciiUppercase (tried word "__".toList n)
    text := fun token => token.text ++ (tried word "__".toList n).drop word.length
    drawn := true
    upper_text := fun token htoken => ?_
    plain := fun h => by cases h }, ?_, fun _ => ⟨hnew, hdrawn, hknown⟩, fun h => by cases h⟩
  · obtain ⟨-, hupper⟩ := symbolOf_eq_word.1 htoken
    have hword : toAsciiUppercase token.text = word := hupper
    have hword' : toAsciiUppercase word = word := by rw [← hword, toAsciiUppercase_idem]
    rw [hdrop, htried, List.append_assoc, toAsciiUppercase_append (s := token.text),
      toAsciiUppercase_append (s := word), hword, hword']
  · refine editsAt_congr fun token => ?_
    change (if token.isWord = true ∧ token.upper = word then
      some (token.text ++ (freshName context word "__".toList).1.drop word.length) else none) = _
    rw [hname]
    exact if_congr symbolOf_eq_word.symm rfl rfl

theorem makes_quoted {symbol target : Text} {name : Text} {known : List Text} (drawn : Bool)
    (hname : toAsciiUppercase target = name)
    (hdrawn : drawn = true → name ∉ context.knownNames ∧ MayBeDrawn name ∧ known = context.knownNames ++ [name])
    (hkept : drawn = false → known = context.knownNames ∧ target = symbol ∧ isPlain symbol = true) :
    ∃ r : Renaming u, Makes config context known {
      rule := quotedIdentifierId
      key := nameKey quotedIdentifierId (u.upperText symbol)
      edits := editsAt config.files context.index fun other =>
        if other.kind = .wstring ∧ u.upperText (unquoted other) = u.upperText symbol then some target else none } r := by
  have hsame (h : drawn = false) : u.upperText symbol = name := by
    obtain ⟨-, rfl, hplain⟩ := hkept h
    rw [upperText_of_isPlain hplain, hname]
  refine ⟨{
    symbol := .quoted (u.upperText symbol)
    name := name
    text := fun _ => target
    drawn := drawn
    upper_text := fun token htoken => hname
    plain := fun h => ⟨congrArg Symbol.quoted (hsame h), ?_⟩ }, ?_, hdrawn, fun h => ⟨(hkept h).1, rfl, hsame h⟩⟩
  · obtain ⟨-, rfl, hplain⟩ := hkept h
    rw [← hname, isPlain_toAsciiUppercase, hplain]
  · refine editsAt_congr fun token => ?_
    rw [Renaming.newText]
    exact if_congr symbolOf_eq_quoted.symm rfl rfl

/-- **What a rule proposes** is a renaming; without a proposal the known names stay. -/
theorem rule_spec (name : RuleName) (file : Text) (located : Located) :
    (∀ proposal, ((config.rule u name).propose context file located).1 = some proposal →
      ∃ r : Renaming u, Makes config context ((config.rule u name).propose context file located).2 proposal r) ∧
    (((config.rule u name).propose context file located).1 = none →
      ((config.rule u name).propose context file located).2 = context.knownNames) := by
  have hrename (rule word : Text) (proposal : Proposal)
      (h : ((proposeRename config.files rule context word).map some id).1 = some proposal) :
      ∃ r : Renaming u, Makes config context (proposeRename config.files rule context word).2 proposal r := by
    cases h
    exact makes_proposeRename rule word
  cases name with
  | keyword =>
    simp only [Config.rule, keywordIdentifierRename]
    split
    · split
      · exact ⟨hrename _ _, fun h => by cases h⟩
      · exact ⟨(fun _ h => by cases h), fun _ => rfl⟩
    · exact ⟨(fun _ h => by cases h), fun _ => rfl⟩
  | standard =>
    simp only [Config.rule, standardNameCollisionRename]
    split
    · split
      · exact ⟨hrename _ _, fun h => by cases h⟩
      · exact ⟨(fun _ h => by cases h), fun _ => rfl⟩
    · exact ⟨(fun _ h => by cases h), fun _ => rfl⟩
  | quoted =>
    simp only [Config.rule, quotedIdentifier]
    split
    · split
      · rename_i token _ _
        refine ⟨fun proposal h => ?_, fun h => by cases h⟩
        cases h
        by_cases hplain : isPlain (unquoted token) = true
        · rw [if_pos hplain]
          exact makes_quoted false rfl (fun h => by cases h) fun _ => ⟨rfl, rfl, hplain⟩
        · rw [if_neg hplain]
          obtain ⟨n, hname, hnew, hknown, hdrawn⟩ :=
            freshName_spec context (mangledBase (unquoted token)) (.inr rfl : _ ∨ "__Q".toList = "__Q".toList)
          refine makes_quoted true rfl (fun _ => ?_) fun h => by cases h
          rw [hname]
          exact ⟨hnew, hdrawn, hknown⟩
      · exact ⟨(fun _ h => by cases h), fun _ => rfl⟩
    · exact ⟨(fun _ h => by cases h), fun _ => rfl⟩

end Proposals

end SemantiST.Intake.Naming
