import SemantiST.Compiler.ControlFlow
import SemantiST.Lib.Lines

/-!
# Where the ticks stand

What `instrument` (`compiler/instrumentation/loop_budget.py`) adds to a module, and whether a tick stands in a
loop header and after its phi nodes (`instrument_conservative_iff`).
-/

namespace SemantiST.Compiler

open Lib

/-! ## Good places -/

/-- A tick after the first `k` lines of a function stands in a loop header, and after all its phi nodes. -/
structure WellPlaced (numbering : ℕ → Text) (body : List Text) (k : ℕ) : Prop where
  header : ∃ label, standsIn numbering (body.take k) = some label ∧ LoopHeader numbering body label
  phis : .word "phi".toList ∉ blockRest 0 ((body.drop k).flatMap lineTokens)

/-! ## The functions of a module -/

/-- The functions that `instrument` collects, with the lines before them. -/
def functionsFrom : ℕ → ℕ → List Text → List (ℕ × List Text)
  | 0, _, _ => []
  | _ + 1, _, [] => []
  | n + 1, start, line :: lines =>
    if !isDefine line then functionsFrom n (start + 1) lines
    else
      let (body, rest) := collectBody 0 (line :: lines)
      (start, body) :: functionsFrom n (start + body.length) rest

def functionsIn (lines : List Text) : List (ℕ × List Text) := functionsFrom lines.length 0 lines

/-! ## What is added -/

def isAdded (line : Text) : Bool := line = tickLine ∨ line = tickDeclaration

/-- What is left without the ticks and the declaration. -/
def plain (output : List Text) : List Text := output.filter fun line => !isAdded line

/-- How many other lines stand before each of the lines that are added, from `i` on. -/
def placesFrom (added : Text) : ℕ → List Text → List ℕ
  | _, [] => []
  | i, line :: lines =>
    (if line = added then [i] else []) ++ placesFrom added (if isAdded line then i else i + 1) lines

/-- The output is the module with ticks at good places, and with one declaration between its functions where a
tick is added. -/
structure Inserted (numbering : ℕ → Text) (lines output : List Text) : Prop where
  ticks : ∀ i ∈ placesFrom tickLine 0 output, ∃ start body k, (start, body) ∈ functionsIn lines ∧
    i = start + k ∧ k ≤ body.length ∧ WellPlaced numbering body k
  declarations : (placesFrom tickDeclaration 0 output).length ≤ 1
  declared : placesFrom tickLine 0 output ≠ [] → placesFrom tickDeclaration 0 output ≠ []
  outside : ∀ i ∈ placesFrom tickDeclaration 0 output, ∀ start body, (start, body) ∈ functionsIn lines →
    i ≤ start ∨ start + body.length ≤ i

/-- **The pass is conservative**: a module that mentions the tick is left as it is, and to another one only
ticks and a declaration are added. -/
structure Conservative (numbering : ℕ → Text) (source : Text) : Prop where
  known : contains ('@' :: tickName) source = true → (instrument source).1 = source
  only : contains ('@' :: tickName) source = false →
    plain ((instrument source).1.splitOn '\n') = source.splitOn '\n'
  inserted : contains ('@' :: tickName) source = false →
    Inserted numbering (splitlines source) ((instrument source).1.splitOn '\n')

/-! ## Lines that are added -/

section Added

variable {lines xs ys body : List Text} {line added : Text} {i k : ℕ}

theorem tickLine_ne_tickDeclaration : tickLine ≠ tickDeclaration := by decide

@[simp] theorem isAdded_tickLine : isAdded tickLine = true := by decide

@[simp] theorem isAdded_tickDeclaration : isAdded tickDeclaration = true := by decide

@[simp] theorem plain_append : plain (xs ++ ys) = plain xs ++ plain ys := List.filter_append xs ys

theorem plain_cons_of_source (h : isAdded line = false) : plain (line :: lines) = line :: plain lines :=
  List.filter_cons_of_pos (by simp [h])

theorem plain_cons_of_added (h : isAdded line = true) : plain (line :: lines) = plain lines :=
  List.filter_cons_of_neg (by simp [h])

theorem plain_eq_self (h : ∀ line ∈ lines, isAdded line = false) : plain lines = lines :=
  List.filter_eq_self.2 fun line hline => by simp [h line hline]

theorem placesFrom_append : placesFrom added i (xs ++ ys) =
    placesFrom added i xs ++ placesFrom added (i + (plain xs).length) ys := by
  induction xs generalizing i with
  | nil => rfl
  | cons line xs ih =>
    rw [List.cons_append, placesFrom, placesFrom, ih, List.append_assoc]
    cases h : isAdded line with
    | true => rw [plain_cons_of_added h, if_pos rfl]
    | false =>
      rw [plain_cons_of_source h, if_neg Bool.false_ne_true, List.length_cons,
        show i + 1 + (plain xs).length = i + ((plain xs).length + 1) by omega]

theorem placesFrom_cons_of_source (h : isAdded line = false) (hadded : isAdded added = true) :
    placesFrom added i (line :: lines) = placesFrom added (i + 1) lines := by
  have hne : line ≠ added := by
    rintro rfl
    rw [h] at hadded
    cases hadded
  rw [placesFrom, if_neg hne, h, if_neg Bool.false_ne_true]
  rfl

theorem placesFrom_eq_map : placesFrom added i lines = (placesFrom added 0 lines).map (i + ·) := by
  induction lines generalizing i with
  | nil => rfl
  | cons line lines ih =>
    rw [placesFrom, placesFrom, ih, List.map_append, ih (i := if isAdded line then 0 else 0 + 1), List.map_map]
    congr 1
    · split <;> rfl
    · apply List.map_congr_left
      intro k _
      dsimp only [Function.comp]
      split <;> omega

theorem mem_placesFrom {j : ℕ} : j ∈ placesFrom added i lines ↔ ∃ k ∈ placesFrom added 0 lines, j = i + k := by
  rw [placesFrom_eq_map, List.mem_map]
  exact exists_congr fun k => and_congr_right fun _ => eq_comm

theorem placesFrom_of_source (h : ∀ line ∈ lines, isAdded line = false) (hadded : isAdded added = true) :
    placesFrom added i lines = [] := by
  induction lines generalizing i with
  | nil => rfl
  | cons line lines ih =>
    rw [placesFrom_cons_of_source (h line List.mem_cons_self) hadded]
    exact ih fun l hl => h l (List.mem_cons_of_mem _ hl)

end Added

/-! ## Line by line -/

/-- What is put out for the lines of a function; `pending` is set while a tick is due. -/
def tickLines (headers : List Text) : Bool → List Text → List Text
  | pending, [] => if pending then [tickLine] else []
  | pending, line :: lines =>
    match matchLabel line with
    | some name => (if pending then [tickLine] else []) ++ line :: tickLines headers (decide (bare name ∈ headers)) lines
    | none =>
      if pending && !isPhi line then tickLine :: line :: tickLines headers false lines
      else line :: tickLines headers pending lines

section Lines

variable {headers lines rest body front : List Text} {line first name : Text} {pending : Bool} {k : ℕ}

/-- Lines as `_parse_function` has read them; the block that is being read stands first. -/
structure Parsed (lines : List Text) (state : List Text × List Block) : Prop where
  text : state.1 ++ state.2.reverse.flatMap Block.allLines = lines
  before : ∀ line ∈ state.1, matchLabel line = none
  labels : ∀ b ∈ state.2, ∃ name, matchLabel b.first = some name ∧ bare name = b.label
  inner : ∀ b ∈ state.2, ∀ line ∈ b.lines, matchLabel line = none

theorem parsed_parseLine {state : List Text × List Block} (h : Parsed lines state) (line : Text) :
    Parsed (lines ++ [line]) (parseLine state line) := by
  obtain ⟨before, blocks⟩ := state
  unfold parseLine
  cases hlabel : matchLabel line with
  | some name =>
    dsimp only
    refine ⟨?_, h.before, ?_, ?_⟩
    · rw [← h.text]
      simp [Block.allLines]
    · intro b hb
      rcases List.mem_cons.1 hb with rfl | hb
      · exact ⟨name, hlabel, rfl⟩
      · exact h.labels b hb
    · intro b hb
      rcases List.mem_cons.1 hb with rfl | hb
      · exact fun l hl => nomatch hl
      · exact h.inner b hb
  | none =>
    dsimp only
    cases blocks with
    | nil =>
      refine ⟨?_, ?_, h.labels, h.inner⟩
      · rw [← h.text]
        simp
      · intro l hl
        rcases List.mem_append.1 hl with hl | hl
        · exact h.before l hl
        · rw [List.mem_singleton.1 hl]
          exact hlabel
    | cons current blocks =>
      dsimp only
      refine ⟨?_, h.before, ?_, ?_⟩
      · rw [← h.text]
        simp [Block.allLines, Block.addLine]
      · intro b hb
        rcases List.mem_cons.1 hb with rfl | hb
        · exact h.labels current List.mem_cons_self
        · exact h.labels b (List.mem_cons_of_mem _ hb)
      · intro b hb
        rcases List.mem_cons.1 hb with rfl | hb
        · intro l hl
          rcases List.mem_append.1 hl with hl | hl
          · exact h.inner current List.mem_cons_self l hl
          · rw [List.mem_singleton.1 hl]
            exact hlabel
        · exact h.inner b (List.mem_cons_of_mem _ hb)

theorem parsed_foldl (lines : List Text) : Parsed lines (lines.foldl parseLine ([], [])) := by
  induction lines using List.reverseRecOn with
  | nil => exact ⟨rfl, fun _ h => (nomatch h), fun _ h => (nomatch h), fun _ h => (nomatch h)⟩
  | append_singleton lines line ih =>
    rw [List.foldl_append]
    exact parsed_parseLine ih line

theorem graphic_of_isNameChar {c : Char} (h : isNameChar c = true) : 0x21 ≤ c.toNat ∧ c.toNat ≤ 0x7e := by
  have halphanum : c.isAlphanum = (c.isUpper || c.isLower || c.isDigit) := rfl
  simp only [isNameChar, halphanum, Bool.or_eq_true, beq_iff_eq] at h
  rcases h with ((((((h | h) | h)) | h) | h) | h) | h
  · have := isUpper_range h
    omega
  · have := isLower_range h
    omega
  · have := isDigit_range h
    omega
  all_goals
    rw [h]
    decide

/-- A line that is read as a phi is no label. -/
theorem matchLabel_of_isPhi (h : isPhi line = true) : matchLabel line = none := by
  cases line with
  | nil => rfl
  | cons c line =>
    unfold isPhi trim at h
    by_cases hspace : isSpace c = true
    · -- what is indented is no label
      have hname : isNameChar c = false := by
        by_contra hname
        rw [isSpace_graphic (graphic_of_isNameChar (Bool.not_eq_false _ ▸ hname))] at hspace
        cases hspace
      have hquote : c ≠ '"' := by
        rintro rfl
        revert hspace
        decide
      have hnone : matchName (c :: line) = none := by
        unfold matchName
        split
        · rename_i heq
          exact absurd (List.cons.inj heq).1 hquote
        · rw [List.takeWhile_cons_of_neg (by simp [hname])]
          rfl
      rw [matchLabel, hnone]
    · rw [List.dropWhile_cons_of_neg hspace] at h
      obtain ⟨rest, hrest⟩ := (List.isPrefixOf_iff_prefix.1 h).trans (List.rdropWhile_prefix _ _)
      rw [← hrest]
      rfl

theorem tickLines_append_of_inner (h : ∀ line ∈ lines, matchLabel line = none) :
    tickLines headers false (lines ++ rest) = lines ++ tickLines headers false rest := by
  induction lines with
  | nil => rfl
  | cons line lines ih =>
    rw [List.cons_append, tickLines, h line List.mem_cons_self]
    simp only [Bool.false_and, Bool.false_eq_true, if_false]
    rw [ih fun l hl => h l (List.mem_cons_of_mem _ hl)]
    rfl

/-- The tick that is due comes out in the block, after its leading phi nodes. -/
theorem tickLines_pending (h : ∀ line ∈ lines, matchLabel line = none)
    (hrest : ∀ line ∈ rest.head?, (matchLabel line).isSome) :
    tickLines headers true (lines ++ rest) = insertTick lines ++ tickLines headers false rest := by
  induction lines with
  | nil =>
    cases rest with
    | nil => rfl
    | cons line rest =>
      obtain ⟨name, hname⟩ := Option.isSome_iff_exists.1 (hrest line rfl)
      rw [List.nil_append, tickLines, tickLines, hname]
      rfl
  | cons line lines ih =>
    have hinner : ∀ l ∈ lines, matchLabel l = none := fun l hl => h l (List.mem_cons_of_mem _ hl)
    rw [List.cons_append, tickLines, h line List.mem_cons_self, insertTick]
    dsimp only
    cases hphi : isPhi line with
    | true =>
      rw [if_neg (by simp), if_pos rfl, ih hinner]
      rfl
    | false =>
      rw [if_pos (by simp), if_neg Bool.false_ne_true, tickLines_append_of_inner hinner]
      rfl

/-- **What is put out for a function**, line by line. -/
theorem emitted_eq_tickLines (body : List Text) :
    (parseFunction body).1 ++ (emitBlocks (parseFunction body).2).1 =
      tickLines (loopHeaders (parseFunction body).2) false body := by
  have hparsed := parsed_foldl body
  unfold parseFunction
  generalize body.foldl parseLine ([], []) = state at hparsed
  obtain ⟨before, reversed⟩ := state
  obtain ⟨htext, hbefore, hlabels, hinner⟩ := hparsed
  dsimp only at htext hbefore hlabels hinner ⊢
  generalize hblocks : reversed.reverse = blocks at htext
  have hlabels (b : Block) (hb : b ∈ blocks) := hlabels b (List.mem_reverse.1 (hblocks ▸ hb))
  have hinner (b : Block) (hb : b ∈ blocks) := hinner b (List.mem_reverse.1 (hblocks ▸ hb))
  have hemit : (emitBlocks blocks).1 = blocks.flatMap fun b => (emitBlock (loopHeaders blocks) b).1 := by
    unfold emitBlocks
    dsimp only
    split
    · rename_i hnone
      simp [emitBlock, hnone]
    · rfl
  rw [← htext, tickLines_append_of_inner hbefore, hemit]
  congr 1
  generalize loopHeaders blocks = headers
  clear hemit htext hblocks
  induction blocks with
  | nil => rfl
  | cons b blocks ih =>
    obtain ⟨name, hname, hbare⟩ := hlabels b List.mem_cons_self
    have ih := ih (fun c hc => hlabels c (List.mem_cons_of_mem _ hc)) fun c hc => hinner c (List.mem_cons_of_mem _ hc)
    have hfirst := hinner b List.mem_cons_self
    have hrest : ∀ line ∈ (blocks.flatMap Block.allLines).head?, (matchLabel line).isSome := by
      cases blocks with
      | nil =>
        intro l hl
        cases hl
      | cons c blocks =>
        intro l hl
        obtain ⟨other, hother, -⟩ := hlabels c (List.mem_cons_of_mem _ List.mem_cons_self)
        obtain rfl : c.first = l := by simpa [Block.allLines] using hl
        rw [hother]
        rfl
    rw [List.flatMap_cons, List.flatMap_cons, ih, Block.allLines, List.cons_append, tickLines, hname]
    dsimp only
    rw [hbare, if_neg Bool.false_ne_true, List.nil_append]
    unfold emitBlock
    by_cases hheader : b.label ∈ headers
    · rw [if_pos hheader, decide_eq_true hheader, tickLines_pending hfirst hrest]
      rfl
    · rw [if_neg hheader, decide_eq_false hheader, tickLines_append_of_inner hfirst]
      rfl

end Lines

section Places

variable {headers lines rest body output : List Text} {line first name added : Text} {pending declared : Bool}
  {i j k n start : ℕ}

theorem plain_tickLines (h : ∀ line ∈ lines, isAdded line = false) : plain (tickLines headers pending lines) = lines := by
  induction lines generalizing pending with
  | nil => cases pending <;> rfl
  | cons line lines ih =>
    have ih (p : Bool) : plain (tickLines headers p lines) = lines :=
      ih fun l hl => h l (List.mem_cons_of_mem _ hl)
    have hline := h line List.mem_cons_self
    rw [tickLines]
    split
    · rw [plain_append, plain_cons_of_source hline, ih]
      cases pending <;> rfl
    · split
      · rw [plain_cons_of_added isAdded_tickLine, plain_cons_of_source hline, ih]
      · rw [plain_cons_of_source hline, ih]

/-- The place of the tick of a block that begins somewhere in a function. -/
def HeaderPlace (headers lines : List Text) (k : ℕ) : Prop :=
  ∃ front first rest name, lines = front ++ first :: rest ∧ matchLabel first = some name ∧
    bare name ∈ headers ∧ k = front.length + 1 + (rest.takeWhile isPhi).length

theorem headerPlace_cons : HeaderPlace headers (line :: lines) k ↔
    (∃ name, matchLabel line = some name ∧ bare name ∈ headers ∧ k = 1 + (lines.takeWhile isPhi).length) ∨
      ∃ j, HeaderPlace headers lines j ∧ k = 1 + j := by
  constructor
  · rintro ⟨front, first, rest, name, hlines, hname, hheader, hk⟩
    cases front with
    | nil =>
      obtain ⟨rfl, rfl⟩ := List.cons.inj hlines
      exact .inl ⟨name, hname, hheader, by rw [hk, List.length_nil, Nat.zero_add]⟩
    | cons other front =>
      obtain ⟨rfl, rfl⟩ := List.cons.inj hlines
      refine .inr ⟨_, ⟨front, first, rest, name, rfl, hname, hheader, rfl⟩, ?_⟩
      rw [hk, List.length_cons]
      omega
  · rintro (⟨name, hname, hheader, rfl⟩ | ⟨j, ⟨front, first, rest, name, rfl, hname, hheader, rfl⟩, rfl⟩)
    · exact ⟨[], line, lines, name, rfl, hname, hheader, by rw [List.length_nil, Nat.zero_add]⟩
    · refine ⟨line :: front, first, rest, name, rfl, hname, hheader, ?_⟩
      rw [List.length_cons]
      omega

theorem takeWhile_isPhi_of_label (h : matchLabel line = some name) : (line :: lines).takeWhile isPhi = [] := by
  apply List.takeWhile_cons_of_neg
  intro hphi
  rw [matchLabel_of_isPhi hphi] at h
  cases h

/-- **The places of ticks in a function**: after the label of each header and the phis that are read there. -/
theorem mem_placesFrom_tickLines (h : ∀ line ∈ lines, isAdded line = false) :
    k ∈ placesFrom tickLine 0 (tickLines headers pending lines) ↔
      (pending = true ∧ k = (lines.takeWhile isPhi).length) ∨ HeaderPlace headers lines k := by
  induction lines generalizing pending k with
  | nil =>
    have hnone : ¬HeaderPlace headers [] k := by
      rintro ⟨front, first, rest, name, hlines, -⟩
      simp at hlines
    cases pending
    · simp [tickLines, placesFrom, hnone]
    · simp [tickLines, placesFrom, hnone]
  | cons line lines ih =>
    have ih (p : Bool) (k : ℕ) : k ∈ placesFrom tickLine 0 (tickLines headers p lines) ↔
        (p = true ∧ k = (lines.takeWhile isPhi).length) ∨ HeaderPlace headers lines k :=
      ih fun l hl => h l (List.mem_cons_of_mem _ hl)
    have hline := h line List.mem_cons_self
    rw [tickLines, headerPlace_cons]
    split
    · rename_i name hname
      have hdue (output : List Text) : placesFrom tickLine 0 ((if pending then [tickLine] else []) ++ output) =
          (if pending then [0] else []) ++ placesFrom tickLine 0 output := by
        cases pending <;> rfl
      rw [hdue, List.mem_append, placesFrom_cons_of_source hline isAdded_tickLine, mem_placesFrom,
        takeWhile_isPhi_of_label hname]
      have hzero : k ∈ (if pending then [0] else []) ↔ pending = true ∧ k = 0 := by
        cases pending <;> simp
      rw [hzero, List.length_nil]
      apply or_congr_right
      simp only [ih, decide_eq_true_eq, Nat.zero_add]
      constructor
      · rintro ⟨k', ⟨hheader, rfl⟩ | hplace, rfl⟩
        · exact .inl ⟨name, hname, hheader, rfl⟩
        · exact .inr ⟨k', hplace, rfl⟩
      · rintro (⟨other, hother, hheader, rfl⟩ | ⟨k', hplace, rfl⟩)
        · obtain rfl := Option.some.inj (hname.symm.trans hother)
          exact ⟨_, .inl ⟨hheader, rfl⟩, rfl⟩
        · exact ⟨k', .inr hplace, rfl⟩
    · rename_i hnone
      have hlabel : ¬∃ name, matchLabel line = some name ∧ bare name ∈ headers ∧
          k = 1 + (lines.takeWhile isPhi).length := by
        rintro ⟨name, hname, -⟩
        rw [hnone] at hname
        cases hname
      rw [or_iff_right hlabel]
      split
      · rename_i hpending
        obtain ⟨rfl, hphi⟩ := Bool.and_eq_true_iff.1 hpending
        rw [placesFrom, if_pos rfl, if_pos isAdded_tickLine, placesFrom_cons_of_source hline isAdded_tickLine,
          List.mem_append, mem_placesFrom, List.takeWhile_cons_of_neg (by simpa using hphi)]
        simp only [ih, Bool.false_eq_true, false_and, false_or, List.mem_singleton, true_and, List.length_nil,
          Nat.zero_add]
      · rename_i hpending
        rw [placesFrom_cons_of_source hline isAdded_tickLine, mem_placesFrom]
        simp only [ih, or_and_right, exists_or, Nat.zero_add]
        apply or_congr_left
        cases pending with
        | false => simp
        | true =>
          have hphi : isPhi line = true := by simpa using hpending
          rw [List.takeWhile_cons_of_pos hphi, List.length_cons]
          simp only [true_and, exists_eq_left]
          rw [Nat.add_comm]

end Places

/-! ## The whole module -/

section Module

variable {lines rest body output : List Text} {line : Text} {depth : ℤ} {declared : Bool} {i j k n start : ℕ}

theorem collectBody_append (depth : ℤ) (lines : List Text) :
    (collectBody depth lines).1 ++ (collectBody depth lines).2 = lines := by
  induction lines generalizing depth with
  | nil => rfl
  | cons line lines ih =>
    rw [collectBody]
    split
    · rfl
    · exact congrArg (line :: ·) (ih _)

theorem collectBody_ne_nil (depth : ℤ) (line : Text) (lines : List Text) :
    (collectBody depth (line :: lines)).1 ≠ [] := by
  rw [collectBody]
  split
  · exact List.cons_ne_nil _ _
  · exact List.cons_ne_nil _ _

/-- What is put out for the lines of a function. -/
def tickedBody (body : List Text) : List Text := tickLines (loopHeaders (parseFunction body).2) false body

theorem instrumentLines_define (h : isDefine line = true) (hbody : collectBody 0 (line :: lines) = (body, rest)) :
    (instrumentLines (n + 1) declared (line :: lines)).1 =
      (if declared then [] else [tickDeclaration]) ++ (tickedBody body ++ (instrumentLines n true rest).1) := by
  rw [instrumentLines, h, tickedBody, ← emitted_eq_tickLines, if_neg (by simp), hbody]
  simp only [List.append_assoc]

theorem instrumentLines_other (h : isDefine line = false) :
    (instrumentLines (n + 1) declared (line :: lines)).1 = line :: (instrumentLines n declared lines).1 := by
  rw [instrumentLines, h, if_pos (by simp)]

theorem functionsFrom_define (h : isDefine line = true) (hbody : collectBody 0 (line :: lines) = (body, rest)) :
    functionsFrom (n + 1) i (line :: lines) = (i, body) :: functionsFrom n (i + body.length) rest := by
  rw [functionsFrom, h, if_neg (by simp), hbody]

theorem functionsFrom_other (h : isDefine line = false) :
    functionsFrom (n + 1) i (line :: lines) = functionsFrom n (i + 1) lines := by
  rw [functionsFrom, h, if_pos (by simp)]

/-- The lines after a function, and those of it. -/
theorem collectBody_source (h : ∀ l ∈ line :: lines, isAdded l = false) (hlength : (line :: lines).length ≤ n + 1)
    (hbody : collectBody 0 (line :: lines) = (body, rest)) :
    (∀ l ∈ body, isAdded l = false) ∧ (∀ l ∈ rest, isAdded l = false) ∧ rest.length ≤ n ∧
      line :: lines = body ++ rest := by
  have happend := collectBody_append 0 (line :: lines)
  have hne := collectBody_ne_nil 0 line lines
  rw [hbody] at happend hne
  dsimp only at happend hne
  have hpos := List.length_pos_iff.2 hne
  have hsum := congrArg List.length happend
  rw [List.length_append] at hsum
  rw [← happend] at h
  exact ⟨fun l hl => h l (List.mem_append_left _ hl), fun l hl => h l (List.mem_append_right _ hl), by omega,
    happend.symm⟩

theorem plain_instrumentLines (h : ∀ l ∈ lines, isAdded l = false) (hlength : lines.length ≤ n) :
    plain (instrumentLines n declared lines).1 = lines := by
  induction n generalizing declared lines with
  | zero =>
    rw [List.length_eq_zero_iff.1 (Nat.le_zero.1 hlength)]
    rfl
  | succ n ih =>
    cases lines with
    | nil => rfl
    | cons line lines =>
      cases hdefine : isDefine line with
      | false =>
        rw [instrumentLines_other hdefine, plain_cons_of_source (h line List.mem_cons_self),
          ih (fun l hl => h l (List.mem_cons_of_mem _ hl)) (Nat.le_of_succ_le_succ hlength)]
      | true =>
        obtain ⟨hsource, hrest, hle, happend⟩ := collectBody_source h hlength rfl
        rw [instrumentLines_define hdefine rfl, plain_append, plain_append, tickedBody, plain_tickLines hsource,
          ih hrest hle, ← happend]
        cases declared <;> rfl

/-- **The places of ticks**, function by function. -/
theorem mem_placesFrom_instrumentLines (h : ∀ l ∈ lines, isAdded l = false) (hlength : lines.length ≤ n) :
    j ∈ placesFrom tickLine i (instrumentLines n declared lines).1 ↔
      ∃ start body k, (start, body) ∈ functionsFrom n i lines ∧ j = start + k ∧
        HeaderPlace (loopHeaders (parseFunction body).2) body k := by
  induction n generalizing declared i lines with
  | zero =>
    rw [List.length_eq_zero_iff.1 (Nat.le_zero.1 hlength)]
    simp [instrumentLines, placesFrom, functionsFrom]
  | succ n ih =>
    cases lines with
    | nil => simp [instrumentLines, placesFrom, functionsFrom]
    | cons line lines =>
      cases hdefine : isDefine line with
      | false =>
        rw [instrumentLines_other hdefine, functionsFrom_other hdefine,
          placesFrom_cons_of_source (h line List.mem_cons_self) isAdded_tickLine,
          ih (fun l hl => h l (List.mem_cons_of_mem _ hl)) (Nat.le_of_succ_le_succ hlength)]
      | true =>
        generalize hbody : collectBody 0 (line :: lines) = collected
        obtain ⟨body, rest⟩ := collected
        obtain ⟨hsource, hrest, hle, -⟩ := collectBody_source h hlength hbody
        have hdeclared : placesFrom tickLine i (if declared then [] else [tickDeclaration]) = [] ∧
            (plain (if declared then [] else [tickDeclaration])).length = 0 := by
          cases declared <;> exact ⟨rfl, rfl⟩
        rw [instrumentLines_define hdefine hbody, functionsFrom_define hdefine hbody,
          placesFrom_append, placesFrom_append, hdeclared.1, hdeclared.2, List.nil_append, List.mem_append,
          Nat.add_zero, mem_placesFrom, tickedBody, plain_tickLines hsource, ih hrest hle]
        simp only [mem_placesFrom_tickLines hsource, Bool.false_eq_true, false_and, false_or, List.mem_cons,
          Prod.mk.injEq]
        constructor
        · rintro (⟨k, hk, rfl⟩ | ⟨start, other, k, hmem, hj, hk⟩)
          · exact ⟨i, body, k, .inl ⟨rfl, rfl⟩, rfl, hk⟩
          · exact ⟨start, other, k, .inr hmem, hj, hk⟩
        · rintro ⟨start, other, k, ⟨rfl, rfl⟩ | hmem, hj, hk⟩
          · exact .inl ⟨k, hk, hj⟩
          · exact .inr ⟨start, other, k, hmem, hj, hk⟩

theorem placesFrom_tickDeclaration_tickLines {headers : List Text} {pending : Bool}
    (h : ∀ l ∈ lines, isAdded l = false) : placesFrom tickDeclaration i (tickLines headers pending lines) = [] := by
  induction lines generalizing i pending with
  | nil => cases pending <;> rfl
  | cons line lines ih =>
    have ih (i : ℕ) (p : Bool) : placesFrom tickDeclaration i (tickLines headers p lines) = [] :=
      ih fun l hl => h l (List.mem_cons_of_mem _ hl)
    have hline := h line List.mem_cons_self
    have htick (i : ℕ) (output : List Text) :
        placesFrom tickDeclaration i (tickLine :: output) = placesFrom tickDeclaration i output := by
      rw [placesFrom, if_neg tickLine_ne_tickDeclaration, if_pos isAdded_tickLine, List.nil_append]
    rw [tickLines]
    split
    · cases pending
      · exact (placesFrom_cons_of_source hline isAdded_tickDeclaration).trans (ih _ _)
      · exact (htick _ _).trans ((placesFrom_cons_of_source hline isAdded_tickDeclaration).trans (ih _ _))
    · split
      · rw [htick, placesFrom_cons_of_source hline isAdded_tickDeclaration, ih]
      · rw [placesFrom_cons_of_source hline isAdded_tickDeclaration, ih]

/-- **The place of the declaration**: before the first function. -/
theorem placesFrom_tickDeclaration (h : ∀ l ∈ lines, isAdded l = false) (hlength : lines.length ≤ n) :
    placesFrom tickDeclaration i (instrumentLines n declared lines).1 =
      if declared then [] else ((functionsFrom n i lines).head?.map Prod.fst).toList := by
  induction n generalizing declared i lines with
  | zero =>
    rw [List.length_eq_zero_iff.1 (Nat.le_zero.1 hlength)]
    cases declared <;> rfl
  | succ n ih =>
    cases lines with
    | nil => cases declared <;> rfl
    | cons line lines =>
      cases hdefine : isDefine line with
      | false =>
        rw [instrumentLines_other hdefine, functionsFrom_other hdefine,
          placesFrom_cons_of_source (h line List.mem_cons_self) isAdded_tickDeclaration,
          ih (fun l hl => h l (List.mem_cons_of_mem _ hl)) (Nat.le_of_succ_le_succ hlength)]
      | true =>
        generalize hbody : collectBody 0 (line :: lines) = collected
        obtain ⟨body, rest⟩ := collected
        obtain ⟨hsource, hrest, hle, -⟩ := collectBody_source h hlength hbody
        rw [instrumentLines_define hdefine hbody, functionsFrom_define hdefine hbody,
          placesFrom_append, placesFrom_append, tickedBody, placesFrom_tickDeclaration_tickLines hsource,
          ih hrest hle]
        cases declared <;> rfl

/-- The functions stand one after the other. -/
theorem functionsFrom_spec (n start : ℕ) (lines : List Text) :
    (∀ p ∈ functionsFrom n start lines, start ≤ p.1) ∧
      (functionsFrom n start lines).Pairwise fun p q => p.1 + p.2.length ≤ q.1 := by
  induction n generalizing start lines with
  | zero => exact ⟨fun p hp => (nomatch hp), List.Pairwise.nil⟩
  | succ n ih =>
    cases lines with
    | nil => exact ⟨fun p hp => (nomatch hp), List.Pairwise.nil⟩
    | cons line lines =>
      rw [functionsFrom]
      split
      · obtain ⟨hle, hpairwise⟩ := ih (start + 1) lines
        exact ⟨fun p hp => (Nat.le_succ start).trans (hle p hp), hpairwise⟩
      · obtain ⟨hle, hpairwise⟩ := ih (start + (collectBody 0 (line :: lines)).1.length)
          (collectBody 0 (line :: lines)).2
        refine ⟨fun p hp => ?_, List.pairwise_cons.2 ⟨hle, hpairwise⟩⟩
        rcases List.mem_cons.1 hp with rfl | hp
        · exact Nat.le_refl _
        · exact (Nat.le_add_right _ _).trans (hle p hp)

/-- A place inside a function is in no other function. -/
theorem function_unique {other : List Text} {start' : ℕ} (h : (start, body) ∈ functionsFrom n i lines)
    (h' : (start', other) ∈ functionsFrom n i lines) (hj : start < j ∧ j ≤ start + body.length)
    (hj' : start' < j ∧ j ≤ start' + other.length) : start = start' ∧ body = other := by
  by_contra hne
  have hpairwise := (functionsFrom_spec n i lines).2
  let apart (p q : ℕ × List Text) : Prop := p.1 + p.2.length ≤ q.1 ∨ q.1 + q.2.length ≤ p.1
  have : Std.Symm apart := ⟨fun _ _ => Or.symm⟩
  have hapart : apart (start, body) (start', other) :=
    (hpairwise.imp (S := apart) Or.inl).forall h h' fun heq => hne (Prod.mk.injEq _ _ _ _ ▸ heq)
  dsimp only [apart] at hapart
  omega

end Module

/-! ## Headers without phi nodes -/

section Clean

variable {numbering : ℕ → Text} {lines rest body front : List Text} {line first name : Text} {k : ℕ}

/-- **The headers of a function have no phi nodes** but those on lines that begin with `phi `. -/
def PhisClean (body : List Text) : Prop :=
  ∀ front first rest name, body = front ++ first :: rest → matchLabel first = some name →
    bare name ∈ loopHeaders (parseFunction body).2 →
      .word "phi".toList ∉ blockRest 0 ((rest.dropWhile isPhi).flatMap lineTokens)

/-- The lines before and after the place of a header. -/
theorem take_drop_place (hbody : body = front ++ first :: rest)
    (hk : k = front.length + 1 + (rest.takeWhile isPhi).length) :
    body.take k = front ++ first :: rest.takeWhile isPhi ∧ body.drop k = rest.dropWhile isPhi := by
  have hsplit : body = (front ++ first :: rest.takeWhile isPhi) ++ rest.dropWhile isPhi := by
    rw [List.append_assoc, List.cons_append, List.takeWhile_append_dropWhile, hbody]
  have hlength : k = (front ++ first :: rest.takeWhile isPhi).length := by
    rw [hk, List.length_append, List.length_cons]
    omega
  rw [hsplit, hlength, List.take_left, List.drop_left]
  exact ⟨rfl, rfl⟩

theorem HeaderPlace.le_length {headers : List Text} (h : HeaderPlace headers body k) : 0 < k ∧ k ≤ body.length := by
  obtain ⟨front, first, rest, name, rfl, -, -, rfl⟩ := h
  have := (List.takeWhile_prefix isPhi (l := rest)).length_le
  rw [List.length_append, List.length_cons]
  omega

theorem WellPlaced.pos (h : WellPlaced numbering body k) : 0 < k := by
  obtain ⟨label, hlabel, -⟩ := h.header
  apply Nat.pos_of_ne_zero
  rintro rfl
  cases hlabel

/-- Where the blocks of a function with headers are read, its ticks are well placed exactly if the headers have no
other phi nodes. -/
theorem phisClean_iff (h : loopHeaders (parseFunction body).2 ≠ [] → BlocksRead numbering body) : PhisClean body ↔
    ∀ k, HeaderPlace (loopHeaders (parseFunction body).2) body k → WellPlaced numbering body k := by
  constructor
  · rintro hclean k ⟨front, first, rest, name, hbody, hname, hheader, hk⟩
    have hread := h (List.ne_nil_of_mem hheader)
    obtain ⟨htake, hdrop⟩ := take_drop_place hbody hk
    refine ⟨⟨bare name, ?_, hread.loopHeader hheader⟩, ?_⟩
    · rw [htake]
      exact hread.opens front first rest name hbody hname
    · rw [hdrop]
      exact hclean front first rest name hbody hname hheader
  · intro hplaced front first rest name hbody hname hheader
    have hphis := (hplaced _ ⟨front, first, rest, name, hbody, hname, hheader, rfl⟩).phis
    rwa [(take_drop_place hbody rfl).2] at hphis

end Clean

/-! ## The pass -/

section Pass

variable {numbering : ℕ → Text} {source : Text} {lines : List Text} {line : Text}

/-- **What is added to the lines of a module.** -/
theorem inserted_iff (h : ∀ l ∈ lines, isAdded l = false)
    (hread : ∀ start body, (start, body) ∈ functionsIn lines → loopHeaders (parseFunction body).2 ≠ [] →
      BlocksRead numbering body) :
    Inserted numbering lines (instrumentLines lines.length false lines).1 ↔
      ∀ start body, (start, body) ∈ functionsIn lines → PhisClean body := by
  have hplaces (i : ℕ) := (mem_placesFrom_instrumentLines h (Nat.le_refl _) :
    i ∈ placesFrom tickLine 0 (instrumentLines lines.length false lines).1 ↔ _)
  have hdeclaration := (placesFrom_tickDeclaration h (Nat.le_refl _) :
    placesFrom tickDeclaration 0 (instrumentLines lines.length false lines).1 = _)
  rw [if_neg Bool.false_ne_true] at hdeclaration
  constructor
  · intro hinserted start body hmem
    rw [phisClean_iff (hread start body hmem)]
    intro k hk
    obtain ⟨start', other, k', hmem', hsum, hle, hplaced⟩ :=
      hinserted.ticks _ ((hplaces _).2 ⟨start, body, k, hmem, rfl, hk⟩)
    obtain ⟨hpos, hlength⟩ := hk.le_length
    have hpos' := hplaced.pos
    obtain ⟨rfl, rfl⟩ := function_unique (j := start + k) hmem hmem' (by omega) (by omega)
    obtain rfl : k = k' := by omega
    exact hplaced
  · intro hclean
    refine ⟨fun i hi => ?_, ?_, ?_, ?_⟩
    · obtain ⟨start, body, k, hmem, rfl, hk⟩ := (hplaces i).1 hi
      exact ⟨start, body, k, hmem, rfl, hk.le_length.2,
        (phisClean_iff (hread start body hmem)).1 (hclean start body hmem) k hk⟩
    · rw [hdeclaration]
      cases (functionsFrom lines.length 0 lines).head? with
      | none => exact Nat.zero_le 1
      | some p => exact Nat.le_refl 1
    · intro hne
      obtain ⟨i, hi⟩ := List.exists_mem_of_ne_nil _ hne
      obtain ⟨start, body, k, hmem, -⟩ := (hplaces i).1 hi
      rw [hdeclaration]
      cases hfunctions : functionsFrom lines.length 0 lines with
      | nil =>
        rw [hfunctions] at hmem
        cases hmem
      | cons p functions => exact List.cons_ne_nil _ _
    · intro i hi start body hmem
      have hpairwise := (functionsFrom_spec lines.length 0 lines).2
      rw [hdeclaration] at hi
      unfold functionsIn at hmem
      cases hfunctions : functionsFrom lines.length 0 lines with
      | nil =>
        rw [hfunctions] at hmem
        cases hmem
      | cons p functions =>
        rw [hfunctions] at hi hmem hpairwise
        obtain rfl : i = p.1 := by simpa using hi
        rcases List.mem_cons.1 hmem with rfl | hmem
        · exact .inl (Nat.le_refl _)
        · exact .inl ((Nat.le_add_right _ _).trans (List.rel_of_pairwise_cons hpairwise hmem))

/-- A module that does not mention the tick has none of the lines that are added. -/
theorem isAdded_of_fresh (h : contains ('@' :: tickName) source = false) : ∀ l ∈ splitlines source, isAdded l = false := by
  intro l hl
  by_contra hadded
  have hword : '@' :: tickName <:+: l := by
    rw [Bool.not_eq_false, isAdded, decide_eq_true_iff] at hadded
    rcases hadded with rfl | rfl
    · exact contains_iff.1 (by decide)
    · exact contains_iff.1 (by decide)
  rw [contains_iff.2 (hword.trans (infix_of_mem_splitlines hl))] at h
  cases h

theorem splitOn_instrument (h : contains ('@' :: tickName) source = false) :
    (instrument source).1.splitOn '\n' = (instrumentedLines source).1 ++ lastLine source := by
  have hplain : plain (instrumentedLines source).1 = splitlines source :=
    plain_instrumentLines (isAdded_of_fresh h) (Nat.le_refl _)
  unfold instrument
  rw [if_neg (by simp [h])]
  apply splitOn_intercalate_lastLine
  · intro l hl hbreak
    cases hadded : isAdded l with
    | true =>
      rw [isAdded, decide_eq_true_iff] at hadded
      rcases hadded with rfl | rfl
      · revert hbreak
        decide
      · revert hbreak
        decide
    | false =>
      have hmem : l ∈ splitlines source := hplain ▸ List.mem_filter.2 ⟨hl, by simp [hadded]⟩
      have := notBreak_of_mem_splitlines hmem _ hbreak
      rw [isLineBreak_newline] at this
      cases this
  · constructor
    · intro hnil
      rw [hnil] at hplain
      exact splitlines_eq_nil_iff.1 hplain.symm
    · rintro rfl
      rfl

theorem isAdded_of_mem_lastLine (h : line ∈ lastLine source) : isAdded line = false := by
  unfold lastLine at h
  split at h
  · rw [List.mem_singleton.1 h]
    rfl
  · cases h

theorem Inserted.of_places {output output' : List Text} (h : Inserted numbering lines output)
    (hplaces : ∀ added, isAdded added = true → placesFrom added 0 output' = placesFrom added 0 output) :
    Inserted numbering lines output' := by
  have htick := hplaces tickLine isAdded_tickLine
  have hdeclaration := hplaces tickDeclaration isAdded_tickDeclaration
  refine ⟨?_, ?_, ?_, ?_⟩
  · rw [htick]
    exact h.ticks
  · rw [hdeclaration]
    exact h.declarations
  · rw [htick, hdeclaration]
    exact h.declared
  · rw [hdeclaration]
    exact h.outside

/-- A module that mentions the tick is left as it is. -/
theorem conservative_of_known (h : contains ('@' :: tickName) source = true) : Conservative numbering source := by
  refine ⟨fun _ => ?_, fun hfresh => ?_, fun hfresh => ?_⟩
  · rw [instrument, if_pos h]
  · rw [h] at hfresh
    cases hfresh
  · rw [h] at hfresh
    cases hfresh

theorem conservative_iff_of_fresh (hfresh : contains ('@' :: tickName) source = false)
    (hread : ∀ start body, (start, body) ∈ functionsIn (splitlines source) →
      loopHeaders (parseFunction body).2 ≠ [] → BlocksRead numbering body) :
    Conservative numbering source ↔
      PlainBreaks source ∧ ∀ start body, (start, body) ∈ functionsIn (splitlines source) → PhisClean body := by
  have hsource := isAdded_of_fresh hfresh
  have hsplit := splitOn_instrument hfresh
  have hplain : plain ((instrument source).1.splitOn '\n') = splitlines source ++ lastLine source := by
    rw [hsplit, plain_append, plain_eq_self fun l hl => isAdded_of_mem_lastLine hl]
    exact congrArg (· ++ lastLine source) (plain_instrumentLines hsource (Nat.le_refl _))
  have hplaces (added : Text) (hadded : isAdded added = true) :
      placesFrom added 0 ((instrument source).1.splitOn '\n') =
        placesFrom added 0 (instrumentLines (splitlines source).length false (splitlines source)).1 := by
    rw [hsplit, placesFrom_append, placesFrom_of_source (fun l hl => isAdded_of_mem_lastLine hl) hadded,
      List.append_nil]
    rfl
  rw [plainBreaks_iff, ← hplain, eq_comm, ← inserted_iff hsource hread]
  constructor
  · intro h
    exact ⟨h.only hfresh, (h.inserted hfresh).of_places fun added hadded => (hplaces added hadded).symm⟩
  · rintro ⟨honly, hinserted⟩
    refine ⟨fun h => ?_, fun _ => honly, fun _ => hinserted.of_places hplaces⟩
    rw [hfresh] at h
    cases h

/-- A loop whose back edge stands on the line of its terminator. -/
def simpleLoop : Text :=
  joinLines (["define void @f(i1 %x) \x7b", "entry:", "  br label %loop", "loop:",
    "  br i1 %x, label %loop, label %done", "done:", "  ret void", "\x7d"].map String.toList)

theorem blocksRead_simpleLoop : BlocksRead decimal (splitlines simpleLoop) := by
  -- the kernel reads lists of characters faster than literals
  have htext : simpleLoop = _ := congrArg joinLines (map_toList_ofList [_, _, _, _, _, _, _, _])
  have hcfg : basicBlocks decimal (splitlines simpleLoop) = [
      { name := "entry".toList, targets := ["loop".toList], ended := true },
      { name := "loop".toList, targets := ["loop".toList, "done".toList], ended := true },
      { name := "done".toList, ended := true }] := by
    rw [htext]
    decide +kernel
  have hedges : ∀ u ∈ (parseFunction (splitlines simpleLoop)).2.map Block.label,
      successorsOf (parseFunction (splitlines simpleLoop)).2 u =
        (basicBlocks decimal (splitlines simpleLoop)).flatMap (fun block =>
          if block.name = u then block.targets else []) ∧
      ∀ v ∈ successorsOf (parseFunction (splitlines simpleLoop)).2 u,
        isLabelOf (parseFunction (splitlines simpleLoop)).2 v = true := by
    rw [htext]
    decide +kernel
  have hopens : ∀ k < (splitlines simpleLoop).length, ∀ first ∈ (splitlines simpleLoop)[k]?,
      ∀ name ∈ matchLabel first, standsIn decimal ((splitlines simpleLoop).take k ++
        first :: ((splitlines simpleLoop).drop (k + 1)).takeWhile isPhi) = some (bare name) := by
    rw [htext]
    decide +kernel
  refine ⟨⟨"entry".toList, "entry".toList, by rw [htext]; decide +kernel, by rw [htext]; decide +kernel, .inl rfl⟩,
    fun u v hu => ?_, fun front first rest name hbody hname => ?_⟩
  · obtain ⟨hsuccessors, hknown⟩ := hedges u (mem_labels_iff.1 hu)
    have hedge : CfgEdge decimal (splitlines simpleLoop) u v ↔
        v ∈ successorsOf (parseFunction (splitlines simpleLoop)).2 u := by
      rw [hsuccessors, List.mem_flatMap]
      refine exists_congr fun block => and_congr_right fun _ => ?_
      by_cases hname : block.name = u
      · rw [if_pos hname, and_iff_right hname]
      · rw [if_neg hname]
        exact ⟨fun h => absurd h.1 hname, fun h => by cases h⟩
    rw [hedge]
    exact ⟨fun h => ⟨h, hknown v h⟩, fun h => h.1⟩
  · have hplace := hopens front.length
    rw [hbody] at hplace
    have h := hplace (by rw [List.length_append, List.length_cons]; omega) first (by simp) name hname
    rwa [List.take_left, List.drop_append, List.drop_eq_nil_of_le (Nat.le_succ _), Nat.add_sub_cancel_left,
      List.nil_append] at h

/-- A loop whose header has a phi. -/
def phiLoop : Text :=
  joinLines (["define void @f(i1 %x) \x7b", "entry:", "  br label %loop", "loop:",
    "  %i = phi i32 [ 0, %entry ], [ 1, %loop ]", "  br i1 %x, label %loop, label %done", "done:",
    "  ret void", "\x7d"].map String.toList)

end Pass

end SemantiST.Compiler
