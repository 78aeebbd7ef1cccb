import SemantiST.Compiler.TickPlaces

/-!
# Ticks on cycles

Whether every cycle of the control-flow graph of a function has a block with a tick, so that no execution
can loop forever without ticking.
-/

namespace SemantiST.Compiler

open Lib

variable {numbering : ℕ → Text} {source : Text} {body : List Text}

/-- `instrument` inserts a tick in the block with this label. -/
def TickInserted (numbering : ℕ → Text) (source label : Text) : Prop :=
  contains ('@' :: tickName) source = false ∧
    ∃ k ∈ placesFrom tickLine 0 (instrumentedLines source).1, standsIn numbering ((splitlines source).take k) = some label

/-- What a function text must be like to be instrumented completely. -/
structure Accounted (numbering : ℕ → Text) (source : Text) : Prop where
  /-- The tick is not mentioned yet. -/
  fresh : contains ('@' :: tickName) source = false
  /-- The text is one function, whose braces balance at its last line. -/
  whole : (splitlines source).head?.any isDefine = true ∧
    collectBody 0 (splitlines source) = (splitlines source, [])
  /-- The parser records the edges that lie on cycles. -/
  recorded : ∀ u v, CfgEdge numbering (codeLines source) u v →
    Relation.ReflTransGen (CfgEdge numbering (codeLines source)) v u →
      v ∈ successorsOf (parseFunction (splitlines source)).2 u ∧
        isLabelOf (parseFunction (splitlines source)).2 v = true
  /-- A block on a cycle goes on after the line with its label and the lines that are read as phi nodes. -/
  opens : ∀ front first rest name, splitlines source = front ++ first :: rest → matchLabel first = some name →
    Relation.TransGen (CfgEdge numbering (codeLines source)) (bare name) (bare name) →
      standsIn numbering (front ++ first :: rest.takeWhile isPhi) = some (bare name)

/-! ## Cycles -/

/-- A path reaches its end. -/
theorem reach_getLast? {α : Type*} {r : α → α → Prop} {a z : α} {path : List α}
    (h : (a :: path).IsChain r) (hlast : (a :: path).getLast? = some z) :
    Relation.ReflTransGen r a z := by
  induction path generalizing a with
  | nil =>
    obtain rfl := Option.some.inj hlast
    exact Relation.ReflTransGen.refl
  | cons b path ih =>
    rw [List.isChain_cons_cons] at h
    rw [List.getLast?_cons_cons] at hlast
    exact (ih h.2 hlast).head h.1

/-- The edges of a closed path lie on a cycle. -/
theorem isChain_on_cycle {α : Type*} {r : α → α → Prop} {a z : α} {path : List α}
    (h : (a :: path).IsChain r) (hlast : (a :: path).getLast? = some z)
    (hback : Relation.ReflTransGen r z a) :
    (a :: path).IsChain fun b c => r b c ∧ Relation.ReflTransGen r c b := by
  induction path generalizing a with
  | nil => exact List.isChain_singleton a
  | cons b path ih =>
    rw [List.isChain_cons_cons] at h ⊢
    rw [List.getLast?_cons_cons] at hlast
    exact ⟨⟨h.1, (reach_getLast? h.2 hlast).trans hback⟩, ih h.2 hlast (hback.tail h.1)⟩

/-- A node of a path that is not its end has a successor there. -/
theorem exists_next {α : Type*} {r : α → α → Prop} {b z : α} {path : List α} (h : (path ++ [z]).IsChain r)
    (hb : b ∈ path) : ∃ c, r b c := by
  obtain ⟨front, back, rfl⟩ := List.append_of_mem hb
  rw [List.append_assoc, List.cons_append] at h
  have hback := (List.isChain_append.1 h).2.1
  cases back with
  | nil => exact ⟨z, (List.isChain_cons_cons.1 hback).1⟩
  | cons c back => exact ⟨c, (List.isChain_cons_cons.1 hback).1⟩

/-- The block with a label that `_parse_function` reads. -/
theorem exists_label_line {b : Block} (hb : b ∈ (parseFunction body).2) : ∃ front first rest name,
    body = front ++ first :: rest ∧ matchLabel first = some name ∧ bare name = b.label := by
  have hparsed := parsed_foldl body
  unfold parseFunction at hb
  generalize body.foldl parseLine ([], []) = state at hparsed hb
  obtain ⟨before, reversed⟩ := state
  have hmem : b ∈ reversed := List.mem_reverse.1 hb
  obtain ⟨name, hname, hbare⟩ := hparsed.labels b hmem
  obtain ⟨front, back, hsplit⟩ := List.append_of_mem (List.mem_reverse.2 hmem)
  refine ⟨before ++ front.flatMap Block.allLines, b.first, b.lines ++ back.flatMap Block.allLines, name, ?_, hname,
    hbare⟩
  rw [← hparsed.text, hsplit, List.flatMap_append, List.flatMap_cons, List.append_assoc]
  rfl

theorem accounted_simpleLoop : Accounted decimal simpleLoop := by
  have htext : simpleLoop = _ := congrArg joinLines (map_toList_ofList [_, _, _, _, _, _, _, _])
  have hlines : codeLines simpleLoop = splitlines simpleLoop := by
    rw [htext]
    decide +kernel
  refine ⟨by rw [htext]; decide +kernel, ⟨by rw [htext]; decide +kernel, by rw [htext]; decide +kernel⟩, fun u v hedge hback => ?_,
    fun front first rest name hbody hname _ => blocksRead_simpleLoop.opens front first rest name hbody hname⟩
  rw [hlines] at hedge
  have hlabels : ∀ block ∈ basicBlocks decimal (splitlines simpleLoop),
      isLabelOf (parseFunction (splitlines simpleLoop)).2 block.name = true := by
    rw [htext]
    decide +kernel
  have hu : isLabelOf (parseFunction (splitlines simpleLoop)).2 u = true := by
    obtain ⟨block, hblock, rfl, -⟩ := hedge
    exact hlabels block hblock
  exact (blocksRead_simpleLoop.edges u v hu).1 hedge

/-- A loop whose back edge stands on a later line of its switch. -/
def switchLoop : Text :=
  joinLines (["define void @f(i32 %x) \x7b", "entry:", "  br label %loop", "loop:",
    "  switch i32 %x, label %done [", "    i32 0, label %loop", "  ]", "done:", "  ret void",
    "\x7d"].map String.toList)

end SemantiST.Compiler
