import Mathlib.Data.List.Infix
import SemantiST.Intake.Structure
import SemantiST.Lib.Loop
import SemantiST.Lib.Tiles

/-!
# Tokens lose nothing

Every token class reads at least one character, and no more than there are.  So the loop of
`tokenize_lossless` ends on every text, and its tokens are the text cut into consecutive spans
(`tokens_lossless`).
-/

namespace SemantiST.Intake

open Lib

/-! ## What a token class reads -/

/-- A token has a character, and its characters are those of the text. -/
def Reads (s : Text) (n : ℕ) : Prop := 0 < n ∧ n ≤ s.length

theorem reads_one (c : Char) (rest : Text) : Reads (c :: rest) 1 := ⟨Nat.one_pos, by simp⟩

theorem reads_takeWhile {p : Char → Bool} {c : Char} (hc : p c = true) (rest : Text) :
    Reads (c :: rest) ((c :: rest).takeWhile p).length := by
  refine ⟨?_, (List.takeWhile_prefix _).length_le⟩
  rw [List.takeWhile_cons_of_pos hc]
  exact Nat.succ_pos _

theorem le_of_startsWith {s : Text} {p : String} (h : startsWith s p = true) : p.length ≤ s.length := by
  have hle := (List.isPrefixOf_iff_prefix.1 h).length_le
  rwa [String.length_toList] at hle

/-- The words of a list that a text starts with. -/
theorem reads_find {s : Text} {words : List String} {word : String} (hwords : ∀ w ∈ words, 0 < w.length)
    (h : words.find? (startsWith s) = some word) : Reads s word.length :=
  ⟨hwords word (List.mem_of_find?_eq_some h), le_of_startsWith (List.find?_some h)⟩

theorem blockCommentEnd_bounds {opener close prev : Char} {unclosed i n : ℕ} {s : Text}
    (h : blockCommentEnd opener close unclosed prev i s = some n) : i < n ∧ n ≤ i + s.length := by
  fun_induction blockCommentEnd opener close unclosed prev i s with
  | case1 => cases h
  | case2 unclosed prev i c rest _ ih =>
    obtain ⟨hlt, hle⟩ := ih h
    rw [List.length_cons]
    omega
  | case3 =>
    cases h
    rw [List.length_cons]
    omega
  | case4 unclosed prev i c rest _ _ _ ih =>
    obtain ⟨hlt, hle⟩ := ih h
    rw [List.length_cons]
    omega
  | case5 unclosed prev i c rest _ _ ih =>
    obtain ⟨hlt, hle⟩ := ih h
    rw [List.length_cons]
    omega

theorem stringEnd_bounds {quote : Char} {i n : ℕ} {s : Text} (h : stringEnd quote i s = some n) :
    i < n ∧ n ≤ i + s.length := by
  fun_induction stringEnd quote i s with
  | case1 => cases h
  | case2 => cases h
  | case3 i c rest hc ih =>
    obtain ⟨hlt, hle⟩ := ih h
    simp only [List.length_cons]
    omega
  | case4 => cases h
  | case5 =>
    cases h
    simp only [List.length_cons]
    omega
  | case6 i c rest _ _ _ ih =>
    obtain ⟨hlt, hle⟩ := ih h
    simp only [List.length_cons]
    omega

theorem groupedLength_le (digit : Char → Bool) (s : Text) : groupedLength digit s ≤ s.length := by
  fun_induction groupedLength digit s with
  | case1 => exact Nat.le_refl _
  | case2 c rest _ ih => exact Nat.succ_le_succ ih
  | case3 => exact Nat.zero_le _

theorem basedLength_le (base : String) (digit : Char → Bool) (s : Text) : basedLength base digit s ≤ s.length := by
  unfold basedLength
  dsimp only
  split
  · rename_i h
    rw [Bool.and_eq_true] at h
    have hbase := le_of_startsWith h.1
    have hdigits := groupedLength_le digit (s.drop base.length)
    rw [List.length_drop] at hdigits
    omega
  · exact Nat.zero_le _

theorem reads_decimalLength {c : Char} (hc : c.isDigit = true) (rest : Text) :
    Reads (c :: rest) (decimalLength (c :: rest)) := by
  have hle := groupedLength_le Char.isDigit (c :: rest)
  have hpos : 0 < groupedLength Char.isDigit (c :: rest) := by
    rw [groupedLength, hc, Bool.true_or, if_pos rfl]
    exact Nat.succ_pos _
  unfold decimalLength
  dsimp only
  generalize groupedLength Char.isDigit (c :: rest) = n at hle hpos ⊢
  split
  · rename_i e after hafter
    have hlength := congrArg List.length hafter
    rw [List.length_drop, @List.length_cons _ e] at hlength
    have hsigned (sign : ℕ) : Reads (c :: rest)
        (if (decide (e = 'e') || decide (e = 'E')) && decide ((after.drop sign).takeWhile Char.isDigit ≠ []) then
          n + 1 + sign + ((after.drop sign).takeWhile Char.isDigit).length else n) := by
      split
      · rename_i h
        rw [Bool.and_eq_true, decide_eq_true_eq] at h
        have hexponent := List.length_pos_iff.2 h.2
        have htake := (@List.takeWhile_prefix _ (after.drop sign) Char.isDigit).length_le
        rw [List.length_drop] at htake
        exact ⟨by omega, by omega⟩
      · exact ⟨hpos, hle⟩
    exact hsigned _
  · exact ⟨hpos, hle⟩

theorem reads_numberLength {c : Char} (hc : c.isDigit = true) (rest : Text) :
    Reads (c :: rest) (numberLength (c :: rest)) := by
  obtain ⟨hpos, hle⟩ := reads_decimalLength hc rest
  unfold numberLength
  exact ⟨by omega, Nat.max_le.2 ⟨Nat.max_le.2 ⟨basedLength_le _ _ _, basedLength_le _ _ _⟩,
    Nat.max_le.2 ⟨basedLength_le _ _ _, hle⟩⟩⟩

theorem reads_directLength {s : Text} {n : ℕ} (h : directLength s = some n) : Reads s n := by
  unfold directLength at h
  split at h
  · rename_i c a rest
    dsimp only at h
    split at h
    · rename_i hthird
      cases h
      cases rest with
      | nil => simp at hthird
      | cons b rest => exact ⟨by omega, by simp⟩
    · split at h
      · cases h
        exact ⟨by omega, by simp⟩
      · cases h
  · cases h

section Scanner

variable (u : UnicodeData)

theorem typedLiteralLength_le {u : UnicodeData} {word s : Text} {n : ℕ} (h : typedLiteralLength u word s = some n) :
    n ≤ s.length := by
  obtain ⟨rest, -, rfl⟩ := Option.map_eq_some_iff.1 h
  exact Nat.sub_le _ _

theorem reads_scanWord {c : Char} (hc : isIdentChar c = true) (rest : Text) :
    Reads (c :: rest) (scanWord u (c :: rest)).2 := by
  have htake (n : ℕ) {word : Text} (h : toAsciiUppercase ((c :: rest).take n) = word) (hlength : word.length = n) :
      n ≤ (c :: rest).length := by
    have heq := congrArg List.length h
    rw [toAsciiUppercase, List.length_map, List.length_take, hlength] at heq
    omega
  have hite {p : Bool} {best best' : TokenKind × ℕ} (hbest : p = true → Reads (c :: rest) best.2)
      (hbest' : Reads (c :: rest) best'.2) : Reads (c :: rest) (if p then best else best').2 := by
    split
    · rename_i hp
      exact hbest hp
    · exact hbest'
  unfold scanWord
  extract_lets word upper best bestRef bestReference
  have hbestRef : Reads (c :: rest) bestRef.2 := by
    refine hite (fun h => ?_) (reads_takeWhile hc rest)
    rw [Bool.and_eq_true, decide_eq_true_eq] at h
    exact ⟨Nat.succ_pos _, htake 4 h.1 rfl⟩
  have hbest : Reads (c :: rest) bestReference.2 := by
    refine hite (fun h => ?_) hbestRef
    rw [Bool.and_eq_true, decide_eq_true_eq] at h
    exact ⟨Nat.succ_pos _, htake 12 h.1 rfl⟩
  split
  · rename_i hsharp
    have hlt : bestReference.2 < (c :: rest).length := by
      by_contra hnot
      rw [List.drop_of_length_le (Nat.le_of_not_lt hnot)] at hsharp
      cases hsharp
    split
    · rename_i n hn
      have hle := typedLiteralLength_le hn
      rw [List.length_drop] at hle
      exact ⟨by dsimp only; omega, by dsimp only; omega⟩
    · exact ⟨Nat.succ_pos _, hlt⟩
  · exact hbest

/-- **Every token class reads something.** -/
theorem reads_scan (c : Char) (rest : Text) : Reads (c :: rest) (scan u (c :: rest)).2 := by
  unfold scan
  dsimp only
  split
  · rename_i hblank
    exact reads_takeWhile hblank rest
  split
  · rename_i hopen
    have htwo : 2 ≤ (c :: rest).length := by
      rw [Bool.or_eq_true] at hopen
      rcases hopen with h | h <;> exact le_of_startsWith h
    split
    · rename_i n hend
      obtain ⟨hlt, hle⟩ := blockCommentEnd_bounds hend
      rw [List.length_drop] at hle
      exact ⟨Nat.zero_lt_of_lt hlt, by dsimp only; omega⟩
    · exact ⟨Nat.two_pos, htwo⟩
  split
  · rename_i hline
    have hc : c = '/' := by
      obtain ⟨tail, htail⟩ := List.isPrefixOf_iff_prefix.1 hline
      exact (List.cons.inj htail).1.symm
    exact reads_takeWhile (by rw [hc]; decide) rest
  split
  · split
    · rename_i token htoken
      exact reads_find (by decide) htoken
    · split
      · rename_i hclosed
        rw [Bool.and_eq_true, List.contains_iff_mem] at hclosed
        refine ⟨Nat.succ_pos _, ?_⟩
        -- the closing brace is after what is taken
        have hlt : (rest.takeWhile (· ≠ '\x7d')).length < rest.length := by
          by_contra hnot
          have heq := List.IsPrefix.eq_of_length_le (@List.takeWhile_prefix _ rest (· ≠ '\x7d'))
            (Nat.le_of_not_lt hnot)
          have hall := List.takeWhile_eq_self_iff.1 heq _ hclosed.2
          simp at hall
        rw [List.length_cons]
        dsimp only
        omega
      · exact reads_one c rest
  split
  · split
    · rename_i n hend
      obtain ⟨hlt, hle⟩ := stringEnd_bounds hend
      refine ⟨Nat.zero_lt_of_lt hlt, ?_⟩
      rw [List.length_cons]
      exact Nat.le_trans hle (Nat.le_of_eq (Nat.add_comm _ _))
    · exact reads_one c rest
  split
  · split
    · rename_i n hdirect
      exact reads_directLength hdirect
    · exact reads_one c rest
  split
  · rename_i hword
    exact reads_scanWord u (by rw [isIdentChar, hword, Bool.true_or]) rest
  split
  · rename_i hdigit
    exact reads_numberLength hdigit rest
  · split
    · rename_i symbol hsymbol
      exact reads_find (by decide) hsymbol
    · exact reads_one c rest

/-! ## The loop over a text -/

/-- The token at a place of a text. -/
def readToken (src : Text) (i line lineStart : ℕ) : LosslessToken :=
  let (kind, n) := scan u (src.drop i)
  { kind := kind, text := (src.drop i).take n, start := i, stop := i + n, line := line, column := i - lineStart + 1 }

/-- The place after the last line feed that is read with a token. -/
def lineStartAfter (token : LosslessToken) (lineStart : ℕ) : ℕ :=
  if token.text.count '\n' = 0 then lineStart
  else token.stop - (token.text.reverse.takeWhile (· ≠ '\n')).length

/-- The variables of the loop of `tokenize_lossless`. -/
structure Tokenizing where
  i : ℕ
  line : ℕ
  lineStart : ℕ
  tokens : List LosslessToken

def Tokenizing.initial : Tokenizing where
  i := 0
  line := 1
  lineStart := 0
  tokens := []

/-- A round of the loop of `tokenize_lossless`. -/
def tokenizeStep (src : Text) (s : Tokenizing) : Option Tokenizing :=
  if s.i < src.length then
    let token := readToken u src s.i s.line s.lineStart
    some
      { i := token.stop
        line := s.line + token.text.count '\n'
        lineStart := lineStartAfter token s.lineStart
        tokens := s.tokens ++ [token] }
  else none

variable {u} {src : Text}

theorem tokenizeStep_cases {s s' : Tokenizing} (h : tokenizeStep u src s = some s') :
    s.i < src.length ∧ s' =
      { i := (readToken u src s.i s.line s.lineStart).stop
        line := s.line + (readToken u src s.i s.line s.lineStart).text.count '\n'
        lineStart := lineStartAfter (readToken u src s.i s.line s.lineStart) s.lineStart
        tokens := s.tokens ++ [readToken u src s.i s.line s.lineStart] } := by
  unfold tokenizeStep at h
  split at h
  · rename_i hlt
    exact ⟨hlt, (Option.some.inj h).symm⟩
  · cases h

theorem readToken_bounds {i : ℕ} (hlt : i < src.length) (line lineStart : ℕ) :
    i < (readToken u src i line lineStart).stop ∧ (readToken u src i line lineStart).stop ≤ src.length ∧
      (readToken u src i line lineStart).text = slice i (readToken u src i line lineStart).stop src := by
  have hdrop : src.drop i = src[i] :: src.drop (i + 1) := List.drop_eq_getElem_cons hlt
  obtain ⟨hpos, hle⟩ : Reads (src.drop i) (scan u (src.drop i)).2 := by
    rw [hdrop]
    exact reads_scan u _ _
  rw [List.length_drop] at hle
  refine ⟨Nat.lt_add_of_pos_right hpos, ?_, ?_⟩
  · dsimp only [readToken]
    omega
  · dsimp only [readToken]
    rw [slice, List.drop_take, Nat.add_sub_cancel_left]

/-! ## Spans -/

/-- Tokens with characters that follow each other from one place of a text to another. -/
def Consecutive (src : Text) : ℕ → List LosslessToken → ℕ → Prop
  | i, [], stop => i = stop
  | i, token :: rest, stop =>
    token.start = i ∧ i < token.stop ∧ token.text = slice token.start token.stop src ∧
      Consecutive src token.stop rest stop

theorem Consecutive.concat {tokens : List LosslessToken} {i j : ℕ} (h : Consecutive src i tokens j)
    {token : LosslessToken} (hstart : token.start = j) (hlt : j < token.stop)
    (htext : token.text = slice token.start token.stop src) : Consecutive src i (tokens ++ [token]) token.stop := by
  induction tokens generalizing i with
  | nil =>
    cases h
    exact ⟨hstart, hlt, htext, rfl⟩
  | cons first rest ih =>
    obtain ⟨hfirst, hpos, hslice, hrest⟩ := h
    exact ⟨hfirst, hpos, hslice, ih hrest⟩

theorem Consecutive.le {tokens : List LosslessToken} {i j : ℕ} (h : Consecutive src i tokens j) : i ≤ j := by
  induction tokens generalizing i with
  | nil => exact Nat.le_of_eq h
  | cons first rest ih => exact Nat.le_trans (Nat.le_of_lt h.2.1) (ih h.2.2.2)

/-- Consecutive tokens make up the text between their ends. -/
theorem Consecutive.join {tokens : List LosslessToken} {i j : ℕ} (h : Consecutive src i tokens j) :
    tokens.flatMap LosslessToken.text = slice i j src := by
  induction tokens generalizing i with
  | nil =>
    cases h
    rw [slice, List.drop_take, Nat.sub_self]
    rfl
  | cons first rest ih =>
    obtain ⟨rfl, hpos, hslice, hrest⟩ := h
    rw [List.flatMap_cons, hslice, ih hrest, slice_concat (Nat.le_of_lt hpos) hrest.le]

/-! ## Positions -/

/-- The characters of the last line of a text. -/
def lastLine (s : Text) : ℕ := (s.reverse.takeWhile (· ≠ '\n')).length

/-- The line and the column of a place, counted from the text. -/
def position (src : Text) (i : ℕ) : ℕ × ℕ := ((src.take i).count '\n' + 1, lastLine (src.take i) + 1)

theorem lastLine_le (s : Text) : lastLine s ≤ s.length := by
  have hle := (@List.takeWhile_prefix _ s.reverse (· ≠ '\n')).length_le
  rwa [List.length_reverse] at hle

theorem lastLine_append (s t : Text) :
    lastLine (s ++ t) = if t.count '\n' = 0 then lastLine s + t.length else lastLine t := by
  unfold lastLine
  rw [List.reverse_append, List.takeWhile_append]
  have hiff : (t.reverse.takeWhile (· ≠ '\n')).length = t.reverse.length ↔ t.count '\n' = 0 := by
    rw [List.count_eq_zero]
    constructor
    · intro hlength hmem
      have heq := (@List.takeWhile_prefix _ t.reverse (· ≠ '\n')).eq_of_length hlength
      have hne := List.takeWhile_eq_self_iff.1 heq '\n' (List.mem_reverse.2 hmem)
      simp at hne
    · intro hnot
      refine congrArg List.length (List.takeWhile_eq_self_iff.2 fun c hc => ?_)
      rw [decide_eq_true_eq]
      rintro rfl
      exact hnot (List.mem_reverse.1 hc)
  by_cases hcount : t.count '\n' = 0
  · rw [if_pos (hiff.2 hcount), if_pos hcount, List.length_append, List.length_reverse, Nat.add_comm]
  · rw [if_neg (fun h => hcount (hiff.1 h)), if_neg hcount]

/-- What the loop of `tokenize_lossless` keeps. -/
structure Tokenized (src : Text) (s : Tokenizing) : Prop where
  le : s.i ≤ src.length
  consecutive : Consecutive src 0 s.tokens s.i
  line : s.line = (src.take s.i).count '\n' + 1
  lineStart : s.lineStart + lastLine (src.take s.i) = s.i
  positions : ∀ token ∈ s.tokens, (token.line, token.column) = position src token.start

theorem tokenized_initial (src : Text) : Tokenized src .initial where
  le := Nat.zero_le _
  consecutive := rfl
  line := rfl
  lineStart := rfl
  positions token hmem := by cases hmem

theorem tokenized_step {s s' : Tokenizing} (h : Tokenized src s) (hstep : tokenizeStep u src s = some s') :
    Tokenized src s' := by
  obtain ⟨hlt, rfl⟩ := tokenizeStep_cases hstep
  obtain ⟨hpos, hstop, htext⟩ := @readToken_bounds u src s.i hlt s.line s.lineStart
  have hposition : ((readToken u src s.i s.line s.lineStart).line, (readToken u src s.i s.line s.lineStart).column) =
      position src (readToken u src s.i s.line s.lineStart).start := by
    have hstart := h.lineStart
    refine Prod.ext h.line ?_
    change s.i - s.lineStart + 1 = lastLine (src.take s.i) + 1
    omega
  have hstart : (readToken u src s.i s.line s.lineStart).start = s.i := rfl
  generalize readToken u src s.i s.line s.lineStart = token at *
  have htake : src.take token.stop = src.take s.i ++ token.text := by
    have hconcat := slice_concat (Nat.zero_le s.i) (Nat.le_of_lt hpos) src
    rw [htext]
    simpa [slice] using hconcat.symm
  have hlength : token.text.length = token.stop - s.i := by
    rw [htext, length_slice, Nat.min_eq_left hstop]
  refine ⟨hstop, h.consecutive.concat hstart hpos (hstart ▸ htext), ?_, ?_, ?_⟩
  · dsimp only
    rw [htake, List.count_append, h.line]
    omega
  · dsimp only [lineStartAfter]
    rw [htake, lastLine_append]
    have hline := h.lineStart
    have hlast := lastLine_le token.text
    split
    · omega
    · change token.stop - lastLine token.text + lastLine token.text = token.stop
      omega
  · intro other hmem
    rcases List.mem_append.1 hmem with hmem | hmem
    · exact h.positions other hmem
    · rw [List.mem_singleton.1 hmem]
      exact hposition

theorem tokensFrom_drop (fuel : ℕ) {i : ℕ} (hlt : i < src.length) (line lineStart : ℕ) :
    tokensFrom u (fuel + 1) i line lineStart (src.drop i) =
      readToken u src i line lineStart ::
        tokensFrom u fuel (readToken u src i line lineStart).stop
          (line + (readToken u src i line lineStart).text.count '\n')
          (lineStartAfter (readToken u src i line lineStart) lineStart)
          (src.drop (readToken u src i line lineStart).stop) := by
  dsimp only [readToken, lineStartAfter]
  rw [← List.drop_drop, List.drop_eq_getElem_cons hlt]
  rfl

/-- The loop of `tokenize_lossless` ends, with the tokens of the text. -/
theorem tokenize_ends (fuel : ℕ) (s : Tokenizing) (hle : s.i ≤ src.length) (hfuel : src.length ≤ s.i + fuel) :
    ∃ t, Loop (tokenizeStep u src) s t ∧
      t.tokens = s.tokens ++ tokensFrom u fuel s.i s.line s.lineStart (src.drop s.i) := by
  induction fuel generalizing s with
  | zero =>
    have hstep : tokenizeStep u src s = none := if_neg (by omega)
    exact ⟨s, .exit hstep, (List.append_nil _).symm⟩
  | succ fuel ih =>
    by_cases hlt : s.i < src.length
    · obtain ⟨hpos, hstop, -⟩ := @readToken_bounds u src s.i hlt s.line s.lineStart
      obtain ⟨t, hloop, htokens⟩ := ih
        { i := (readToken u src s.i s.line s.lineStart).stop
          line := s.line + (readToken u src s.i s.line s.lineStart).text.count '\n'
          lineStart := lineStartAfter (readToken u src s.i s.line s.lineStart) s.lineStart
          tokens := s.tokens ++ [readToken u src s.i s.line s.lineStart] } hstop (by dsimp only; omega)
      refine ⟨t, .next (if_pos hlt) hloop, ?_⟩
      rw [htokens, List.append_assoc, List.singleton_append, tokensFrom_drop fuel hlt]
    · refine ⟨s, .exit (if_neg hlt), ?_⟩
      rw [List.drop_of_length_le (by omega)]
      exact (List.append_nil _).symm

/-- **`tokenize_lossless` loses nothing**: its loop ends, and its tokens are the text cut into consecutive spans. -/
theorem tokens_lossless (u : UnicodeData) (src : Text) :
    (∃ t, Loop (tokenizeStep u src) .initial t ∧ t.tokens = tokenizeLossless u src) ∧
      Consecutive src 0 (tokenizeLossless u src) src.length ∧
      ∀ token ∈ tokenizeLossless u src, (token.line, token.column) = position src token.start := by
  obtain ⟨t, hloop, htokens⟩ := @tokenize_ends u src src.length .initial (Nat.zero_le _) (Nat.le_add_left _ _)
  have hinv := hloop.invariant (fun _ _ hs hstep => tokenized_step hs hstep) (tokenized_initial src)
  have hdone : ¬t.i < src.length := by
    intro hlt
    have hnone := hloop.step_eq_none
    rw [tokenizeStep, if_pos hlt] at hnone
    cases hnone
  have hend : t.i = src.length := Nat.le_antisymm hinv.le (Nat.le_of_not_lt hdone)
  refine ⟨⟨t, hloop, htokens⟩, ?_, ?_⟩
  · have hcons := hinv.consecutive
    rw [htokens, hend] at hcons
    exact hcons
  · have hpositions := hinv.positions
    rw [htokens] at hpositions
    exact hpositions

end Scanner

end SemantiST.Intake
