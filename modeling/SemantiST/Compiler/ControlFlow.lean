import SemantiST.Compiler.LoopBudget
import SemantiST.Lib.Text

/-!
# The control-flow graph of a function

The basic blocks that the text of a function of LLVM IR has, and where control can pass from one to
another.  A label begins a block, and so does an instruction after a terminator; a block without a label
has a number, which counts the arguments, blocks and results without a name before it.
-/

namespace SemantiST.Compiler

open Lib

/-! ## Tokens -/

/-- A line without its comment. -/
def codeOf : Bool → Text → Text
  | _, [] => []
  | inString, c :: s =>
    if c = '"' then c :: codeOf (!inString) s
    else if c = ';' ∧ inString = false then []
    else c :: codeOf inString s

/-- The characters that a quoted name stands for: a backslash and two hexadecimal digits are one. -/
def unescape : ℕ → Text → Text
  | n + 1, c :: a :: b :: s =>
    match c, hexDigit a, hexDigit b with
    | '\\', some x, some y => Char.ofNat (16 * x + y) :: unescape n s
    | _, _, _ => c :: unescape n (a :: b :: s)
  | _, s => s

inductive Token where
  | label (name : Text)
  | word (text : Text)
  | localName (name : Text)
  | other (c : Char)
  deriving DecidableEq

/-- A name, bare or quoted, and what follows it. -/
def readName : Text → Text × Text
  | '"' :: s => (unescape s.length (s.takeWhile (· ≠ '"')), (s.dropWhile (· ≠ '"')).drop 1)
  | s => (s.takeWhile isNameChar, s.dropWhile isNameChar)

/-- The tokens of a line of code.  The names of globals and of metadata are no words. -/
def tokens : ℕ → Text → List Token
  | 0, _ => []
  | _ + 1, [] => []
  | n + 1, c :: s =>
    if isSpace c then tokens n s
    else if c = '%' then .localName (readName s).1 :: tokens n (readName s).2
    else if c = '@' ∨ c = '!' then .other c :: tokens n (readName s).2
    else if c = '"' ∨ isNameChar c = true then
      match readName (c :: s) with
      | (name, ':' :: rest) => .label name :: tokens n rest
      | (name, rest) => (if c = '"' then .other c else .word name) :: tokens n rest
    else .other c :: tokens n s

def lineTokens (line : Text) : List Token := tokens (codeOf false line).length (codeOf false line)

/-- The lines of a text of LLVM IR, which end comments. -/
def codeLines (source : Text) : List Text := pieces (fun c => c == '\n' || c == '\r') source

/-! ## Blocks -/

/-- The instructions that end a block. -/
def terminators : List Text :=
  ["ret", "br", "switch", "indirectbr", "invoke", "callbr", "resume", "unreachable", "cleanupret", "catchret",
    "catchswitch"].map String.toList

/-- A block, with the labels that its terminator refers to. -/
structure BasicBlock where
  name : Text
  targets : List Text := []
  ended : Bool := false
  deriving DecidableEq

/-- The blocks read so far, the current one first, the parentheses that are open and the word that has just
been read. -/
structure Scan where
  blocks : List BasicBlock := []
  depth : ℕ := 0
  lastWord : Option Text := none

/-- A terminator ends the current block, or a block without a label of which it is all that matters. -/
def endBlock (numbering : ℕ → Text) : List BasicBlock → List BasicBlock
  | [] => [{ name := numbering 0, ended := true }]
  | block :: blocks =>
    if block.ended then { name := numbering (blocks.length + 1), ended := true } :: block :: blocks
    else { block with ended := true } :: blocks

def addTarget (name : Text) : List BasicBlock → List BasicBlock
  | [] => []
  | block :: blocks => { block with targets := block.targets ++ [name] } :: blocks

/-- One token of a function; `numbering n` is the number of the `n`-th block if it has no label. -/
def Scan.next (numbering : ℕ → Text) (s : Scan) : Token → Scan
  | .label name =>
    { s with
      blocks := if s.depth = 0 then { name := name } :: s.blocks else s.blocks
      lastWord := none }
  | .word word =>
    { s with
      blocks := if word ∈ terminators then endBlock numbering s.blocks else s.blocks
      -- the directive `uselistorder label %x` is no reference
      lastWord := if s.lastWord = some "uselistorder".toList then none else some word }
  | .localName name =>
    { s with
      blocks := if s.lastWord = some "label".toList then addTarget name s.blocks else s.blocks
      lastWord := none }
  | .other c =>
    { s with
      depth := if c = '(' then s.depth + 1 else if c = ')' then s.depth - 1 else s.depth
      lastWord := none }

def scan (numbering : ℕ → Text) (lines : List Text) : Scan :=
  (lines.flatMap lineTokens).foldl (Scan.next numbering) {}

def basicBlocks (numbering : ℕ → Text) (lines : List Text) : List BasicBlock := (scan numbering lines).blocks.reverse

/-- Control can pass from block `u` to block `v`. -/
def CfgEdge (numbering : ℕ → Text) (lines : List Text) (u v : Text) : Prop :=
  ∃ block ∈ basicBlocks numbering lines, block.name = u ∧ v ∈ block.targets

/-- The block that control begins with. -/
def entryName (numbering : ℕ → Text) (lines : List Text) : Option Text :=
  (basicBlocks numbering lines).head?.map BasicBlock.name

/-- The label of the block that a line after `front` stands in: the current one, unless it has ended. -/
def standsIn (numbering : ℕ → Text) (front : List Text) : Option Text :=
  ((scan numbering front).blocks.head?.filter fun block => !block.ended).map BasicBlock.name

/-- What is left of the current block. -/
def blockRest : ℕ → List Token → List Token
  | _, [] => []
  | depth, t :: ts =>
    match t with
    | .label name => if depth = 0 then [] else .label name :: blockRest depth ts
    | .word word => if word ∈ terminators then [] else .word word :: blockRest depth ts
    | .localName name => .localName name :: blockRest depth ts
    | .other c =>
      .other c :: blockRest (if c = '(' then depth + 1 else if c = ')' then depth - 1 else depth) ts

theorem mem_of_mem_blockRest {depth : ℕ} {t : Token} {ts : List Token} (h : t ∈ blockRest depth ts) : t ∈ ts := by
  induction ts generalizing depth with
  | nil => cases h
  | cons u ts ih =>
    have hcons {depth : ℕ} (h : t ∈ u :: blockRest depth ts) : t ∈ u :: ts :=
      (List.mem_cons.1 h).elim (fun heq => heq ▸ List.mem_cons_self) fun hrest => List.mem_cons_of_mem _ (ih hrest)
    cases u with
    | label name =>
      rw [blockRest] at h
      split at h
      · cases h
      · exact hcons h
    | word word =>
      rw [blockRest] at h
      split at h
      · cases h
      · exact hcons h
    | localName name => exact hcons h
    | other c => exact hcons h

/-- **A loop header**: some path comes to the block before it comes to any other block of a loop through it.
The path begins where control begins, or where control never comes. -/
def LoopHeader (numbering : ℕ → Text) (body : List Text) (header : Text) : Prop :=
  ∃ root, (entryName numbering body = some root ∨
      ∀ entry ∈ entryName numbering body, ¬Relation.ReflTransGen (CfgEdge numbering body) entry root) ∧
    Search.HeadsCycle (CfgEdge numbering body) root header

/-! ## Functions that are read as they are -/

/-- `_parse_function` reads the blocks and the edges of a function.  An entry block without a label, which it
leaves out, leads to the first block that it reads. -/
structure BlocksRead (numbering : ℕ → Text) (body : List Text) : Prop where
  entry : ∃ entry first, entryName numbering body = some entry ∧
    (parseFunction body).2.head?.map Block.label = some first ∧
      (entry = first ∨ isLabelOf (parseFunction body).2 entry = false ∧
        ∀ v, CfgEdge numbering body entry v → v = first)
  edges : ∀ u v, isLabelOf (parseFunction body).2 u = true → (CfgEdge numbering body u v ↔
    v ∈ successorsOf (parseFunction body).2 u ∧ isLabelOf (parseFunction body).2 v = true)
  /-- A block goes on after its label and the lines that are read as phi nodes. -/
  opens : ∀ front first rest name, body = front ++ first :: rest → matchLabel first = some name →
    standsIn numbering (front ++ first :: rest.takeWhile isPhi) = some (bare name)

section Read

variable {numbering : ℕ → Text} {body : List Text} {blocks : List Block} {u v header : Text}

theorem isLabelOf_of_successor (h : v ∈ successorsOf blocks u) : isLabelOf blocks u = true := by
  unfold successorsOf at h
  unfold isLabelOf
  cases hu : byLabel blocks u with
  | none =>
    rw [hu] at h
    cases h
  | some b => rfl

theorem headsCycle_mono {α : Type*} {r s : α → α → Prop} {root target : α} (h : ∀ a b, r a b → s a b)
    (hhead : Search.HeadsCycle r root target) : Search.HeadsCycle s root target := by
  obtain ⟨path, loop, hroot, hpath, hloop, havoid⟩ := hhead
  exact ⟨path, loop, hroot, hpath.imp fun a b => h a b, hloop.imp fun a b => h a b, havoid⟩

theorem BlocksRead.edge (h : BlocksRead numbering body)
    (hedge : Search.Edge (successorsOf (parseFunction body).2) (isLabelOf (parseFunction body).2) u v) :
    CfgEdge numbering body u v :=
  (h.edges u v (isLabelOf_of_successor hedge.1)).2 hedge

/-- What control comes to from a block that is read, is reached over edges that are read. -/
theorem BlocksRead.reach (h : BlocksRead numbering body) (hu : isLabelOf (parseFunction body).2 u = true)
    (hreach : Relation.ReflTransGen (CfgEdge numbering body) u v) : Relation.ReflTransGen
      (Search.Edge (successorsOf (parseFunction body).2) (isLabelOf (parseFunction body).2)) u v := by
  induction hreach using Relation.ReflTransGen.head_induction_on with
  | refl => exact .refl
  | head hedge _ ih =>
    have hread := (h.edges _ _ hu).1 hedge
    exact (ih hread.2).head hread

/-- **The headers that are found are loop headers** where the blocks are read. -/
theorem BlocksRead.loopHeader (h : BlocksRead numbering body)
    (hheader : header ∈ loopHeaders (parseFunction body).2) : LoopHeader numbering body header := by
  obtain ⟨entry, first, hentry, hfirst, hstart⟩ := h.entry
  obtain ⟨block, hblock, rfl⟩ := Option.map_eq_some_iff.1 hfirst
  obtain ⟨rest, hblocks⟩ : ∃ rest, (parseFunction body).2 = block :: rest := by
    cases hlist : (parseFunction body).2 with
    | nil =>
      rw [hlist] at hblock
      cases hblock
    | cons b rest =>
      rw [hlist] at hblock
      obtain rfl := Option.some.inj hblock
      exact ⟨rest, rfl⟩
  have hlabels : (parseFunction body).2.map Block.label = block.label :: rest.map Block.label := by
    rw [hblocks]
    rfl
  have hknown (b : Text) : isLabelOf (parseFunction body).2 b = true ↔ b ∈ block.label :: rest.map Block.label := by
    rw [mem_labels_iff, hlabels]
  unfold loopHeaders at hheader
  cases hsearch : searchBlocks (parseFunction body).2 with
  | none =>
    rw [hsearch] at hheader
    cases hheader
  | some σ =>
    rw [hsearch] at hheader
    rw [searchBlocks, hlabels] at hsearch
    obtain ⟨root, hroot, hbegins, hhead⟩ := Search.headsCycle_of_target (fun b => (hknown b).1)
      (by rw [hblocks, List.length_cons, List.length_cons, List.length_map]) hsearch header hheader
    have hcfg := headsCycle_mono (fun _ _ => h.edge) hhead
    have hfirstKnown := (hknown block.label).2 List.mem_cons_self
    have hrootKnown := (hknown root).2 hroot
    by_cases hfrom : Relation.ReflTransGen (CfgEdge numbering body) entry root
    · -- the path from the entry comes to the root by way of the first block that is read
      have hreach : Relation.ReflTransGen (CfgEdge numbering body) block.label root ∧
          (entry = block.label ∨ CfgEdge numbering body entry block.label ∧
            isLabelOf (parseFunction body).2 entry = false) := by
        rcases hstart with rfl | ⟨hnone, honly⟩
        · exact ⟨hfrom, .inl rfl⟩
        · rcases Relation.ReflTransGen.cases_head hfrom with rfl | ⟨v, hedge, hrest⟩
          · rw [hnone] at hrootKnown
            cases hrootKnown
          · obtain rfl := honly v hedge
            exact ⟨hrest, .inr ⟨hedge, hnone⟩⟩
      have hsame : root = block.label := hbegins.resolve_right fun hnot => hnot (h.reach hfirstKnown hreach.1)
      rcases hreach.2 with rfl | ⟨hedge, hnone⟩
      · exact ⟨root, .inl (hsame ▸ hentry), hcfg⟩
      · refine ⟨entry, .inl hentry, ?_⟩
        obtain ⟨path, loop, hfirstNode, hpath, hloop, havoid⟩ := hhead
        have hread := Search.known_of_isChain hloop
        refine ⟨entry :: path, loop, rfl, ?_, hloop.imp fun _ _ => h.edge, fun b hb => ?_⟩
        · refine List.isChain_cons.2 ⟨fun b hb => ?_, hpath.imp fun _ _ => h.edge⟩
          obtain rfl : b = root := Option.some.inj (hb.symm.trans hfirstNode)
          exact hsame ▸ hedge
        · rcases List.mem_cons.1 hb with rfl | hb
          · intro hmem
            have hlabel : isLabelOf (parseFunction body).2 b = true := by
              apply hread
              rcases List.mem_cons.1 hmem with rfl | hmem
              · exact List.mem_append_right _ List.mem_cons_self
              · exact List.mem_append_left _ hmem
            rw [hnone] at hlabel
            cases hlabel
          · exact havoid b hb
    · refine ⟨root, .inr fun e he => ?_, hcfg⟩
      obtain rfl := Option.some.inj (hentry.symm.trans he)
      exact hfrom

end Read

end SemantiST.Compiler
