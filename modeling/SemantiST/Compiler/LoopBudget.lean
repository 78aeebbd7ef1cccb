import SemantiST.Lib.Dfs
import SemantiST.Lib.Python

/-!
# The loop budget

`compiler/instrumentation/loop_budget.py`, which inserts a tick at every loop header of a module of
LLVM IR.
-/

namespace SemantiST.Compiler

open Lib

/-! ## Patterns -/

def tickName : Text := "__semantist_loop_tick".toList
def tickLine : Text := "  call void @__semantist_loop_tick()".toList
def tickDeclaration : Text := "declare void @__semantist_loop_tick()".toList

/-- A character of a bare name: `[-a-zA-Z$._0-9]`. -/
def isNameChar (c : Char) : Bool := c.isAlphanum || c == '-' || c == '$' || c == '.' || c == '_'

/-- What follows an opening quote: `(?:[^"\\]|\\.)*"`. -/
def quotedTail : Text → Option (Text × Text)
  | [] => none
  | '"' :: s => some (['"'], s)
  | '\\' :: c :: s => if c = '\n' then none else (quotedTail s).map fun (q, r) => ('\\' :: c :: q, r)
  | ['\\'] => none
  | c :: s => (quotedTail s).map fun (q, r) => (c :: q, r)

/-- A name, bare or quoted, at the start of a text. -/
def matchName : Text → Option (Text × Text)
  | '"' :: s => (quotedTail s).map fun (q, r) => ('"' :: q, r)
  | s =>
    let name := s.takeWhile isNameChar
    if name = [] then none else some (name, s.dropWhile isNameChar)

/-- `LABEL_RE`. -/
def matchLabel (line : Text) : Option Text :=
  match matchName line with
  | some (name, ':' :: _) => some name
  | _ => none

/-- What follows `word` at the start of a text. -/
def afterWord (word s : Text) : Option Text :=
  if word.isPrefixOf s then some (s.drop word.length) else none

def contains (word s : Text) : Bool := s.tails.any word.isPrefixOf

theorem contains_iff {word s : Text} : contains word s = true ↔ word <:+: s := by
  rw [contains, List.any_eq_true, List.infix_iff_prefix_suffix]
  simp only [List.mem_tails, List.isPrefixOf_iff_prefix]
  exact exists_congr fun t => and_comm

/-- A word character of a pattern, among ASCII. -/
def isWordChar (c : Char) : Bool := c.isAlphanum || c == '_'

/-- `DEFINE_RE`. -/
def isDefine (line : Text) : Bool :=
  match afterWord "define".toList (line.dropWhile isSpace) with
  | none => false
  | some rest =>
    !(rest.head?.any isWordChar) && rest.tails.any fun t =>
      match t with
      | '@' :: t =>
        match matchName t with
        | some (_, r) => (r.dropWhile isSpace).head? = some '('
        | none => false
      | _ => false

def bare (label : Text) : Text := trim (· == '"') (trim isSpace label)

/-- `SUCC_RE` at the start of a text. -/
def matchSuccessor (s : Text) : Option (Text × Text) := do
  let rest ← afterWord "label".toList s
  match rest with
  | [] => none
  | c :: rest =>
    if !isSpace c then none
    else
      match rest.dropWhile isSpace with
      | '%' :: t => matchName t
      | _ => none

/-- The matches of `SUCC_RE`, from left to right. -/
def findSuccessors : ℕ → Text → List Text
  | 0, _ => []
  | _ + 1, [] => []
  | n + 1, c :: s =>
    match matchSuccessor (c :: s) with
    | some (name, rest) => bare name :: findSuccessors n rest
    | none => findSuccessors n s

def terminatorPrefixes : List Text :=
  ["br ", "switch ", "indirectbr ", "invoke ", "callbr ", "ret ", "unreachable", "resume ",
    "cleanupret ", "catchswitch ", "catchret ", "catchpad ", "cleanuppad "].map String.toList

def isPhi (line : Text) : Bool := "phi ".toList.isPrefixOf (trim isSpace line)

/-! ## Blocks -/

structure Block where
  label : Text
  /-- The line with the label. -/
  first : Text
  lines : List Text := []
  successors : List Text := []
  phis : ℕ := 0

def Block.allLines (b : Block) : List Text := b.first :: b.lines

/-- A line of a block. -/
def Block.addLine (b : Block) (line : Text) : Block :=
  let stripped := trim isSpace line
  { b with
    lines := b.lines ++ [line]
    phis := if isPhi line then b.phis + 1 else b.phis
    successors :=
      if terminatorPrefixes.any fun term => term.isPrefixOf stripped then
        findSuccessors stripped.length stripped
      else b.successors }

/-- One line of `_parse_function`; the block that is being read stands first. -/
def parseLine (acc : List Text × List Block) (line : Text) : List Text × List Block :=
  match matchLabel line with
  | some name => (acc.1, { label := bare name, first := line } :: acc.2)
  | none =>
    match acc.2 with
    | [] => (acc.1 ++ [line], [])
    | current :: blocks => (acc.1, current.addLine line :: blocks)

/-- The lines before the first block, and the blocks. -/
def parseFunction (lines : List Text) : List Text × List Block :=
  let (before, blocks) := lines.foldl parseLine ([], [])
  (before, blocks.reverse)

/-! ## Loop headers -/

def byLabel (blocks : List Block) (label : Text) : Option Block :=
  (blocks.filter fun b => b.label = label).getLast?

def successorsOf (blocks : List Block) (label : Text) : List Text :=
  ((byLabel blocks label).map Block.successors).getD []

def isLabelOf (blocks : List Block) (label : Text) : Bool := (byLabel blocks label).isSome

/-- The search; the depth of its recursion is at most the number of blocks. -/
def searchBlocks (blocks : List Block) : Option (Search Text) :=
  Search.searchFrom (successorsOf blocks) (isLabelOf blocks) blocks.length {} (blocks.map Block.label)

def loopHeaders (blocks : List Block) : List Text := ((searchBlocks blocks).map Search.targets).getD []

/-! ## Instrumentation -/

/-- The tick stands after the leading phi nodes. -/
def insertTick : List Text → List Text
  | [] => [tickLine]
  | line :: lines => if isPhi line then line :: insertTick lines else tickLine :: line :: lines

def emitBlock (headers : List Text) (b : Block) : List Text × ℕ :=
  if b.label ∈ headers then (b.first :: insertTick b.lines, 1) else (b.allLines, 0)

def emitBlocks (blocks : List Block) : List Text × ℕ :=
  let headers := loopHeaders blocks
  if headers = [] then (blocks.flatMap Block.allLines, 0)
  else (blocks.flatMap fun b => (emitBlock headers b).1, (blocks.map fun b => (emitBlock headers b).2).sum)

/-- The lines of a function: up to the one that closes the last brace. -/
def collectBody : ℤ → List Text → List Text × List Text
  | _, [] => ([], [])
  | depth, line :: lines =>
    let depth := depth + line.count '{' - line.count '}'
    if depth = 0 ∧ '}' ∈ line then ([line], lines)
    else
      let (body, rest) := collectBody depth lines
      (line :: body, rest)

/-- The loop of `instrument` over the lines. -/
def instrumentLines : ℕ → Bool → List Text → List Text × ℕ
  | 0, _, _ => ([], 0)
  | _ + 1, _, [] => ([], 0)
  | n + 1, declared, line :: lines =>
    if !isDefine line then
      let (output, count) := instrumentLines n declared lines
      (line :: output, count)
    else
      let (body, rest) := collectBody 0 (line :: lines)
      let (before, blocks) := parseFunction body
      let (emitted, inserted) := emitBlocks blocks
      let (output, count) := instrumentLines n true rest
      ((if declared then [] else [tickDeclaration]) ++ before ++ emitted ++ output, inserted + count)

/-- The lines that `instrument` puts out. -/
def instrumentedLines (source : Text) : List Text × ℕ :=
  let lines := splitlines source
  instrumentLines lines.length false lines

def joinLines (lines : List Text) : Text := List.intercalate ['\n'] lines

def instrument (source : Text) : Text × ℕ :=
  if contains ('@' :: tickName) source then (source, 0)
  else
    let (output, count) := instrumentedLines source
    (joinLines output ++ (if source.getLast? = some '\n' then ['\n'] else []), count)

/-! ## Headers on cycles -/

theorem mem_labels_iff {blocks : List Block} {label : Text} :
    isLabelOf blocks label = true ↔ label ∈ blocks.map Block.label := by
  rw [isLabelOf, byLabel, List.getLast?_isSome, List.mem_map, Ne, List.filter_eq_nil_iff]
  simp

/-- Every cycle of the recorded graph goes through a loop header. -/
theorem exists_header_of_cycle {blocks : List Block} {a : Text} {rest : List Text}
    (h : (a :: rest ++ [a]).IsChain fun u v => v ∈ successorsOf blocks u ∧ isLabelOf blocks v = true) :
    ∃ b ∈ a :: rest, b ∈ loopHeaders blocks := by
  obtain ⟨σ, hsearch, hcycle⟩ := Search.exists_target_of_cycle (successorsOf blocks)
    (isLabelOf blocks) (blocks.map Block.label) blocks.length
    (fun _ => mem_labels_iff) (by rw [List.length_map])
  rw [loopHeaders, searchBlocks, hsearch]
  exact hcycle a rest h

end SemantiST.Compiler
