import SemantiST.Compiler.LoopBudget
import SemantiST.Harness.LlvmTypes
import SemantiST.Lib.Lines

/-!
# The state table

`compiler/harness/state_table.py`: the writable globals of a module are recorded in a table of the module itself,
and read back from it (`stateTable_roundTrip`).
-/

namespace SemantiST.Harness

open Lib Compiler

/-- The character database, with the word characters of patterns. -/
structure PatternData extends UnicodeData where
  word : Char → Bool
  word_ascii : ∀ c : Char, c.toNat < 128 → word c = isWordChar c

def tableName : Text := "__semantist_state_regions".toList
def countName : Text := "__semantist_state_region_count".toList

inductive StateTableError where
  | noType
  | unbalancedType (text : Text)
  | unknownType (text : Text)
  | alreadyContains
  | noTable
  | countMismatch
  | missingGlobal (name : Text)
deriving DecidableEq

structure WritableGlobal where
  name : Text
  llvmType : Text
deriving DecidableEq

/-! ## Writable globals -/

/-- The text up to the bracket that closes the first one; `depth` are open. -/
def balancedType : ℕ → Text → Option Text
  | _, [] => none
  | depth, c :: s =>
    if opens c then (balancedType (depth + 1) s).map (c :: ·)
    else if closes c then
      if depth = 1 then some [c] else (balancedType (depth - 1) s).map (c :: ·)
    else (balancedType depth s).map (c :: ·)

variable (u : PatternData)

/-- `\s+addrspace\(\d+\)` -/
def addressSpace (s : Text) : Text :=
  let blank := s.takeWhile isSpace
  match afterWord "addrspace(".toList (s.dropWhile isSpace) with
  | none => []
  | some rest =>
    let digits := rest.takeWhile fun c => (u.decimal c).isSome
    match rest.dropWhile fun c => (u.decimal c).isSome with
    | ')' :: _ => if blank = [] ∨ digits = [] then [] else blank ++ ("addrspace(".toList ++ (digits ++ [')']))
    | _ => []

/-- A type without brackets. -/
def wordType : Text → Option Text
  | '%' :: s => (matchName s).map fun p => '%' :: p.1
  | c :: s =>
    if c.isLower then
      let name := c :: s.takeWhile fun c => c.isLower || c.isDigit
      some (name ++ addressSpace u (s.dropWhile fun c => c.isLower || c.isDigit))
    else none
  | [] => none

/-- `_split_type` -/
def splitType (text : Text) : Except StateTableError Text :=
  match text.dropWhile isSpace with
  | [] => .error .noType
  | c :: s =>
    if opens c then
      match balancedType 0 (c :: s) with
      | some found => .ok found
      | none => .error (.unbalancedType ((c :: s).take 60))
    else
      match wordType u (c :: s) with
      | some found => .ok found
      | none => .error (.unknownType ((c :: s).take 60))

/-- A character of an attribute: `[-\w.()]`. -/
def isAttributeChar (c : Char) : Bool := u.word c || c == '-' || c == '.' || c == '(' || c == ')'

/-- The keyword of a global, and what follows it; `true` for one that can be written. -/
def matchKind (s : Text) : Option (Bool × Text) :=
  match afterWord "global".toList s, afterWord "constant".toList s with
  | some rest, _ => if rest.head?.any isSpace then some (true, rest.dropWhile isSpace) else none
  | none, some rest => if rest.head?.any isSpace then some (false, rest.dropWhile isSpace) else none
  | none, none => none

/-- The attributes before the keyword. -/
def matchAttributes : ℕ → List Text → Text → Option (List Text × Bool × Text)
  | 0, _, _ => none
  | n + 1, attributes, s =>
    match matchKind s with
    | some (writable, rest) => some (attributes, writable, rest)
    | none =>
      let found := s.takeWhile (isAttributeChar u)
      let rest := s.dropWhile (isAttributeChar u)
      if found = [] ∨ rest.head?.any isSpace = false then none
      else matchAttributes n (attributes ++ [found]) (rest.dropWhile isSpace)

structure GlobalLine where
  name : Text
  attributes : List Text
  writable : Bool
  rest : Text

/-- `_GLOBAL_RE` -/
def matchGlobal (line : Text) : Option GlobalLine :=
  match line with
  | '@' :: s =>
    (matchName s).bind fun (name, rest) =>
      match rest.dropWhile isSpace with
      | '=' :: rest =>
        let rest := rest.dropWhile isSpace
        (matchAttributes u (rest.length + 1) [] rest).map fun (attributes, writable, rest) =>
          ⟨'@' :: name, attributes, writable, rest⟩
      | _ => none
  | _ => none

def declarations : List Text := ["external".toList, "extern_weak".toList, "available_externally".toList]

/-- A global with storage of its own that the harness restores. -/
def isRecorded (g : GlobalLine) : Bool :=
  g.writable &&
  !("@llvm.".toList.isPrefixOf g.name || "@\"llvm.".toList.isPrefixOf g.name ||
    g.name = '@' :: tableName || g.name = '@' :: countName) &&
  !(g.attributes.any fun a => a ∈ declarations || "thread_local".toList.isPrefixOf a) &&
  !contains "section \"llvm.metadata\"".toList g.rest

/-- One line of `writable_globals`. -/
def readGlobal (line : Text) : Except StateTableError (Option WritableGlobal) :=
  match matchGlobal u line with
  | none => .ok none
  | some g =>
    if isRecorded g then (splitType u g.rest).map fun found => some ⟨g.name, found⟩
    else .ok none

def collectGlobals : List Text → Except StateTableError (List WritableGlobal)
  | [] => .ok []
  | line :: lines => do
    let found ← readGlobal u line
    let rest ← collectGlobals lines
    return found.toList ++ rest

/-- `writable_globals` -/
def writableGlobals (source : Text) : Except StateTableError (List WritableGlobal) :=
  collectGlobals u (splitlines source)

/-! ## The table -/

/-- `_bare` -/
def bareName (name : Text) : Text := trim (· == '"') (name.drop 1)

def survives (region : WritableGlobal) (optimized : List Text) : Bool :=
  bareName region.name ∈ optimized ||
    optimized.any fun name => (bareName region.name ++ ['.']).isPrefixOf name

/-- A line that begins with a name and a word boundary after it. -/
def startsWithName (name line : Text) : Bool :=
  match afterWord name line with
  | some rest => !rest.head?.any u.word
  | none => false

def hasTable (source : Text) : Bool :=
  (source.splitOn '\n').any fun line =>
    startsWithName u ('@' :: tableName) line || startsWithName u ('@' :: countName) line

def entryStart : Text := "\x7b ptr, i64 \x7d \x7b ptr ".toList

/-- One entry of the table. -/
def tableEntry (region : WritableGlobal) : Text :=
  entryStart ++ (region.name ++ (", i64 ptrtoint".toList ++ (" (ptr getelementptr (".toList ++ (region.llvmType ++
    ", ptr null, i32 1) to i64) \x7d".toList))))

def initializer (regions : List WritableGlobal) : Text :=
  if regions = [] then "zeroinitializer".toList
  else '[' :: (List.intercalate ", ".toList (regions.map tableEntry) ++ [']'])

def tableLine (regions : List WritableGlobal) : Text :=
  '@' :: (tableName ++ (" = constant [".toList ++ (decimal regions.length ++ (" x \x7b ptr, i64 \x7d] ".toList ++
    (initializer regions ++ ", align 8".toList)))))

def countLine (regions : List WritableGlobal) : Text :=
  '@' :: (countName ++ (" = constant i64 ".toList ++ (decimal regions.length ++ ", align 8".toList)))

/-- The globals that are recorded; with an optimized module, those that can be written in it. -/
def recordedGlobals (source : Text) (optimized : Option Text) : Except StateTableError (List WritableGlobal) := do
  let regions ← writableGlobals u source
  match optimized with
  | none => return regions
  | some text =>
    let writable ← writableGlobals u text
    return regions.filter fun region => survives region (writable.map fun other => bareName other.name)

/-- `append_state_table` -/
def appendStateTable (source : Text) (optimized : Option Text) : Except StateTableError (Text × ℕ) :=
  if hasTable u source then .error .alreadyContains
  else do
    let regions ← recordedGlobals u source optimized
    return (source.rdropWhile (· == '\n') ++
      '\n' :: ('\n' :: (tableLine regions ++ '\n' :: (countLine regions ++ ['\n']))), regions.length)

/-! ## Reading it back -/

/-- The pattern of the table, on one line: the count and the text of the initializer. -/
def matchTable (line : Text) : Option (ℕ × Text) := do
  let rest ← afterWord ('@' :: (tableName ++ " = constant [".toList)) line
  let count ← readNumber u.decimal 10 (rest.takeWhile fun c => (u.decimal c).isSome)
  let initializer ← afterWord " x \x7b ptr, i64 \x7d] ".toList (rest.dropWhile fun c => (u.decimal c).isSome)
  return (count, initializer)

def findTable (source : Text) : Option (ℕ × Text) := (source.splitOn '\n').findSome? (matchTable u)

/-- The pattern of an entry, at the start of a text. -/
def matchEntry (s : Text) : Option (Text × Text) :=
  match afterWord entryStart s with
  | some ('@' :: s) =>
    (matchName s).bind fun (name, rest) =>
      (afterWord ", i64 ptrtoint".toList rest).map fun rest => ('@' :: name, rest)
  | _ => none

/-- The names of the entries, from left to right. -/
def findNames : ℕ → Text → List Text
  | 0, _ => []
  | _ + 1, [] => []
  | n + 1, c :: s =>
    match matchEntry (c :: s) with
    | some (name, rest) => name :: findNames n rest
    | none => findNames n s

/-- `by_name[name]`, where a later region takes the place of an earlier one. -/
def regionOf (regions : List WritableGlobal) (name : Text) : Except StateTableError WritableGlobal :=
  match regions.reverse.find? fun region => region.name = name with
  | some region => .ok region
  | none => .error (.missingGlobal name)

/-- `state_table_globals` -/
def stateTableGlobals (source : Text) : Except StateTableError (List WritableGlobal) :=
  match findTable u source with
  | none => .error .noTable
  | some (count, initializer) =>
    let names := findNames initializer.length initializer
    if names.length ≠ count ∨ names.dedup.length ≠ count then .error .countMismatch
    else do
      let regions ← writableGlobals u source
      names.mapM (regionOf regions)

end SemantiST.Harness
