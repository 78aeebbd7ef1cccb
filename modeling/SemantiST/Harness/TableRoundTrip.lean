import Mathlib.Data.List.Dedup
import SemantiST.Harness.StateTable
import SemantiST.Lib.Fold

/-!
# Reading the state table back

What is appended to a module is found again, and names the globals that were recorded.
-/

namespace SemantiST.Harness

open Lib Compiler

variable {u : PatternData}

theorem afterWord_append (word s : Text) : afterWord word (word ++ s) = some s := by
  rw [afterWord, if_pos (List.isPrefixOf_iff_prefix.2 (List.prefix_append word s)), List.drop_left]

theorem afterWord_eq_some {word s rest : Text} (h : afterWord word s = some rest) : s = word ++ rest := by
  unfold afterWord at h
  split at h
  · rename_i hword
    obtain ⟨t, rfl⟩ := List.isPrefixOf_iff_prefix.1 hword
    rw [List.drop_left] at h
    rw [Option.some.inj h]
  · cases h

/-! ## Names -/

section Names

variable {s rest name quoted : Text} {c : Char}

/-- The quoted part, and what follows it. -/
theorem quotedTail_eq_some (h : quotedTail s = some (quoted, rest)) :
    s = quoted ++ rest ∧ ∀ t, quotedTail (quoted ++ t) = some (quoted, t) := by
  induction s using quotedTail.induct generalizing quoted rest with
  | case1 => cases h
  | case2 s =>
    obtain ⟨rfl, rfl⟩ := Prod.mk.inj (Option.some.inj h)
    exact ⟨rfl, fun t => rfl⟩
  | case3 s =>
    rw [quotedTail, if_pos rfl] at h
    cases h
  | case4 c s hne ih =>
    rw [quotedTail, if_neg hne] at h
    obtain ⟨⟨q, r⟩, hq, heq⟩ := Option.map_eq_some_iff.1 h
    obtain ⟨rfl, rfl⟩ := Prod.mk.inj heq
    obtain ⟨hs, hagain⟩ := ih hq
    refine ⟨by rw [hs]; rfl, fun t => ?_⟩
    rw [List.cons_append, List.cons_append, quotedTail, if_neg hne, hagain]
    rfl
  | case5 => cases h
  | case6 c s hquote hescape hlast ih =>
    rw [quotedTail] at h
    · obtain ⟨⟨q, r⟩, hq, heq⟩ := Option.map_eq_some_iff.1 h
      obtain ⟨rfl, rfl⟩ := Prod.mk.inj heq
      obtain ⟨hs, hagain⟩ := ih hq
      have hplain : c ≠ '\\' := by
        rintro rfl
        cases s with
        | nil => exact hlast rfl rfl
        | cons c' s' => exact hescape c' s' rfl rfl
      refine ⟨by rw [hs]; rfl, fun t => ?_⟩
      rw [List.cons_append, quotedTail, hagain]
      · rfl
      · exact hquote
      · exact fun _ _ heq => absurd heq hplain
      · exact fun heq => absurd heq hplain
    all_goals assumption

theorem takeWhile_of_head {p : Char → Bool} (h : ∀ c ∈ s.head?, p c = false) : s.takeWhile p = [] := by
  cases s with
  | nil => rfl
  | cons c s => rw [List.takeWhile_cons, h c rfl, if_neg Bool.false_ne_true]

theorem dropWhile_of_head {p : Char → Bool} (h : ∀ c ∈ s.head?, p c = false) : s.dropWhile p = s := by
  cases s with
  | nil => rfl
  | cons c s => rw [List.dropWhile_cons, h c rfl, if_neg Bool.false_ne_true]

/-- A name ends where no character of a name follows. -/
theorem matchName_eq_some (h : matchName s = some (name, rest)) : s = name ++ rest ∧
    ∀ t : Text, (∀ c ∈ t.head?, isNameChar c = false) → matchName (name ++ t) = some (name, t) := by
  unfold matchName at h
  split at h
  · obtain ⟨⟨q, r⟩, hq, heq⟩ := Option.map_eq_some_iff.1 h
    obtain ⟨rfl, rfl⟩ := Prod.mk.inj heq
    obtain ⟨hs, hagain⟩ := quotedTail_eq_some hq
    refine ⟨by rw [hs]; rfl, fun t _ => ?_⟩
    rw [List.cons_append, matchName, hagain]
    rfl
  · rename_i hquote
    dsimp only at h
    split at h
    · cases h
    · rename_i hne
      obtain ⟨rfl, rfl⟩ := Prod.mk.inj (Option.some.inj h)
      refine ⟨List.takeWhile_append_dropWhile.symm, fun t ht => ?_⟩
      have hall : ∀ c ∈ s.takeWhile isNameChar, isNameChar c = true := fun c hc => List.mem_takeWhile_imp hc
      obtain ⟨c, front, hfront⟩ := List.exists_cons_of_ne_nil hne
      have hc : c ≠ '"' := by
        rintro rfl
        exact absurd (hall '"' (hfront ▸ List.mem_cons_self)) (by decide)
      have htake : (s.takeWhile isNameChar ++ t).takeWhile isNameChar = s.takeWhile isNameChar := by
        rw [List.takeWhile_append_of_pos hall, takeWhile_of_head ht, List.append_nil]
      have hdrop : (s.takeWhile isNameChar ++ t).dropWhile isNameChar = t := by
        rw [List.dropWhile_append_of_pos hall, dropWhile_of_head ht]
      unfold matchName
      split
      · rename_i heq
        rw [hfront] at heq
        exact absurd (List.cons.inj heq).1 hc
      · dsimp only
        rw [htake, hdrop, if_neg hne]

end Names

/-! ## The entries of the table -/

section Entries

variable {s rest : Text} {n : ℕ} {region : WritableGlobal} {regions : List WritableGlobal}

/-- What every entry begins with. -/
def entryMark : Text := entryStart ++ ['@']

theorem matchEntry_eq_some {p : Text × Text} (h : matchEntry s = some p) : entryMark <+: s := by
  unfold matchEntry at h
  split at h
  · rename_i rest hrest
    rw [afterWord_eq_some hrest, entryMark]
    exact ⟨rest, by rw [List.append_assoc]; rfl⟩
  · cases h

theorem matchEntry_append (s : Text) : matchEntry (entryStart ++ '@' :: s) =
    (matchName s).bind fun p => (afterWord ", i64 ptrtoint".toList p.2).map fun rest => ('@' :: p.1, rest) := by
  rw [matchEntry, afterWord_append]
  rfl

theorem matchEntry_length {name : Text} (h : matchEntry s = some (name, rest)) : rest.length < s.length := by
  unfold matchEntry at h
  split at h
  · rename_i after hafter
    obtain ⟨⟨found, after'⟩, hname, h⟩ := Option.bind_eq_some_iff.1 h
    obtain ⟨last, hlast, heq⟩ := Option.map_eq_some_iff.1 h
    obtain ⟨rfl, rfl⟩ := Prod.mk.inj heq
    obtain ⟨hsplit, -⟩ := matchName_eq_some hname
    rw [afterWord_eq_some hafter, hsplit, afterWord_eq_some hlast]
    simp only [List.length_append, List.length_cons]
    omega
  · cases h

/-- The names of a whole text. -/
def namesOf (s : Text) : List Text := findNames s.length s

theorem findNames_of_le {n : ℕ} (h : s.length ≤ n) : findNames n s = namesOf s := by
  induction n using Nat.strong_induction_on generalizing s with
  | _ n ih =>
    unfold namesOf
    cases s with
    | nil => cases n <;> rfl
    | cons c s =>
      obtain ⟨n, rfl⟩ := Nat.exists_eq_succ_of_ne_zero (Nat.ne_zero_of_lt h)
      rw [List.length_cons] at h ⊢
      rw [findNames, findNames]
      cases hentry : matchEntry (c :: s) with
      | none => rw [ih n (Nat.lt_succ_self n) (Nat.le_of_succ_le_succ h)]; rfl
      | some p =>
        have hlen := matchEntry_length hentry
        rw [List.length_cons] at hlen
        dsimp only
        rw [ih n (Nat.lt_succ_self n) (by omega)]
        by_cases hn : s.length = n
        · rw [hn, ih n (Nat.lt_succ_self n) (by omega)]
        · rw [ih s.length (by omega) (by omega)]

/-- Where no entry begins, the search goes on. -/
theorem namesOf_skip {a b : Text} (h : ∀ k < a.length, ¬ entryMark <+: a.drop k ++ b) :
    namesOf (a ++ b) = namesOf b := by
  induction a with
  | nil => rfl
  | cons c a ih =>
    have hnone : matchEntry (c :: (a ++ b)) = none := by
      cases hentry : matchEntry (c :: (a ++ b)) with
      | none => rfl
      | some p => exact absurd (matchEntry_eq_some hentry) (h 0 (Nat.succ_pos _))
    rw [namesOf, List.cons_append, List.length_cons, findNames, hnone]
    exact ih fun k hk => h (k + 1) (Nat.succ_lt_succ hk)

/-- Without an opening brace no entry begins. -/
theorem namesOf_skip_of_not_mem {a b : Text} (h : '{' ∉ a) : namesOf (a ++ b) = namesOf b := by
  refine namesOf_skip fun k hk hmark => ?_
  rw [List.drop_eq_getElem_cons hk, List.cons_append] at hmark
  have hhead : a[k] = '{' := (List.cons_prefix_cons.1 hmark).1.symm
  exact h (hhead ▸ List.getElem_mem hk)

def afterType : Text := ", ptr null, i32 1) to i64) \x7d".toList

/-- An entry does not begin in a type and end after it. -/
theorem not_mark_of_type {t : Text} (htype : contains entryMark t = false) (rest : Text) {k : ℕ}
    (hk : k < t.length) : ¬ entryMark <+: t.drop k ++ (afterType ++ rest) := by
  intro hmark
  have hinside : ¬ entryMark <+: t.drop k := fun h => by
    have hcontains : contains entryMark t = true := contains_iff.2 (h.isInfix.trans (List.drop_suffix k t).isInfix)
    rw [htype] at hcontains
    cases hcontains
  rcases List.prefix_or_prefix_of_prefix hmark (List.prefix_append _ _) with h | ⟨r, hr⟩
  · exact hinside h
  rw [← hr, List.prefix_append_right_inj] at hmark
  have hlength : r.length ≤ afterType.length := by
    have hlen := congrArg List.length hr
    rw [List.length_append] at hlen
    have hmark : entryMark.length = 20 := rfl
    have hafter : afterType.length = 28 := rfl
    omega
  have hafter := List.prefix_of_prefix_length_le hmark (List.prefix_append _ _) hlength
  have hdrop : r = entryMark.drop (t.drop k).length := by rw [← hr, List.drop_left]
  have hpos : 0 < (t.drop k).length := by
    rw [List.length_drop]
    omega
  have hall : ∀ m < 20, 0 < m → ¬ entryMark.drop m <+: afterType := by decide
  by_cases hm : (t.drop k).length < 20
  · exact hall _ hm hpos (hdrop ▸ hafter)
  · have hnil : r = [] := by
      rw [hdrop, List.drop_eq_nil_iff]
      exact Nat.le_of_not_lt hm
    rw [hnil, List.append_nil] at hr
    exact hinside (hr ▸ List.prefix_refl _)

theorem namesOf_of_match {name : Text} (h : matchEntry s = some (name, rest)) :
    namesOf s = name :: namesOf rest := by
  cases s with
  | nil => cases h
  | cons c s =>
    have hlen := matchEntry_length h
    rw [List.length_cons] at hlen
    rw [namesOf, List.length_cons, findNames, h]
    dsimp only
    rw [findNames_of_le (by omega)]

/-- A region with a name that reads back, and a type in which no entry begins. -/
structure Legible (region : WritableGlobal) : Prop where
  name : ∃ bare, region.name = '@' :: bare ∧
    ∀ t : Text, (∀ c ∈ t.head?, isNameChar c = false) → matchName (bare ++ t) = some (bare, t)
  type : contains entryMark region.llvmType = false

/-- **An entry gives its name.** -/
theorem namesOf_tableEntry (h : Legible region) (rest : Text) :
    namesOf (tableEntry region ++ rest) = region.name :: namesOf rest := by
  obtain ⟨bare, hname, hbare⟩ := h.name
  have hentry : tableEntry region ++ rest = entryStart ++ ('@' :: (bare ++ (", i64 ptrtoint".toList ++
      (" (ptr getelementptr (".toList ++ (region.llvmType ++ (afterType ++ rest)))))) := by
    rw [tableEntry, hname, List.append_assoc, List.append_assoc, List.append_assoc, List.append_assoc,
      List.append_assoc, List.cons_append]
    rfl
  have hmatch : matchEntry (tableEntry region ++ rest) = some (region.name,
      " (ptr getelementptr (".toList ++ (region.llvmType ++ (afterType ++ rest))) := by
    have hcomma : ∀ t : Text, ∀ c ∈ (", i64 ptrtoint".toList ++ t).head?, isNameChar c = false := by
      intro t c hc
      obtain rfl := Option.some.inj hc
      decide
    rw [hentry, matchEntry_append, hbare _ (hcomma _), Option.bind_some, afterWord_append, hname]
    rfl
  rw [namesOf_of_match hmatch, namesOf_skip_of_not_mem (by decide),
    namesOf_skip fun k hk => not_mark_of_type h.type rest hk, namesOf_skip_of_not_mem (by decide)]

/-- **The initializer of the table names its regions.** -/
theorem namesOf_initializer (h : ∀ region ∈ regions, Legible region) :
    namesOf (initializer regions ++ ", align 8".toList) = regions.map WritableGlobal.name := by
  have hentries : ∀ rest : Text, namesOf (List.intercalate ", ".toList (regions.map tableEntry) ++ rest) =
      regions.map WritableGlobal.name ++ namesOf rest := by
    induction regions with
    | nil => intro rest; rfl
    | cons region regions ih =>
      intro rest
      have hregion := h region List.mem_cons_self
      have ih := ih fun other hother => h other (List.mem_cons_of_mem _ hother)
      cases regions with
      | nil =>
        rw [List.map_singleton, List.intercalate_singleton, namesOf_tableEntry hregion]
        rfl
      | cons other regions =>
        rw [List.map_cons, List.map_cons, List.intercalate_cons_cons, List.append_assoc, List.append_assoc,
          namesOf_tableEntry hregion, namesOf_skip_of_not_mem (by decide), ← List.map_cons, ih]
        rfl
  have hend : namesOf (']' :: ", align 8".toList) = [] := by decide
  unfold initializer
  split
  · rename_i hnil
    rw [hnil]
    decide
  · rw [List.cons_append, List.append_assoc,
      show '[' :: (List.intercalate ", ".toList (regions.map tableEntry) ++ ([']'] ++ ", align 8".toList)) =
        ['['] ++ (List.intercalate ", ".toList (regions.map tableEntry) ++ (']' :: ", align 8".toList)) from rfl,
      namesOf_skip_of_not_mem (by decide), hentries, hend, List.append_nil]

end Entries

/-! ## The lines of the module -/

section Modules

variable {source body : Text} {regions : List WritableGlobal}

theorem readDigits_congr {digit digit' : Char → Option ℕ} {base n : ℕ} {s : Text}
    (h : ∀ c ∈ s, digit c = digit' c) : readDigits digit base n s = readDigits digit' base n s := by
  induction s generalizing n with
  | nil => rfl
  | cons c s ih =>
    rw [readDigits, readDigits, h c List.mem_cons_self]
    exact congrArg _ (funext fun d => ih fun c' hc' => h c' (List.mem_cons_of_mem _ hc'))

/-- What `append_state_table` writes. -/
def withTable (source : Text) (regions : List WritableGlobal) : Text :=
  source.rdropWhile (· == '\n') ++
    '\n' :: ('\n' :: (tableLine regions ++ '\n' :: (countLine regions ++ ['\n'])))

/-- A text and the line feeds at its end. -/
theorem exists_newlines (source : Text) :
    ∃ n, source = source.rdropWhile (· == '\n') ++ List.replicate n '\n' := by
  have hend : ∀ c ∈ source.rtakeWhile (· == '\n'), c = '\n' := fun c hc => by
    simpa using List.mem_rtakeWhile_imp hc
  refine ⟨(source.rtakeWhile (· == '\n')).length, ?_⟩
  conv_lhs => rw [← List.rdropWhile_append_rtakeWhile (p := (· == '\n')) (l := source)]
  rw [List.eq_replicate_of_mem hend]
  rw [List.length_replicate]

theorem splitOn_append_newline (a b : Text) :
    (a ++ '\n' :: b).splitOn '\n' = a.splitOn '\n' ++ b.splitOn '\n' := by
  rw [List.splitOn_eq_splitOnP, List.splitOn_eq_splitOnP, List.splitOn_eq_splitOnP,
    List.splitOnP_append_cons _ _ (by decide)]

theorem mem_splitOn_of_append {a line : Text} {n : ℕ} (h : line ∈ a.splitOn '\n') :
    line ∈ (a ++ List.replicate n '\n').splitOn '\n' := by
  cases n with
  | zero => rwa [List.replicate_zero, List.append_nil]
  | succ n =>
    rw [List.replicate_succ, splitOn_append_newline]
    exact List.mem_append_left _ h

theorem startsWithName_of_matchTable {line : Text} {p : ℕ × Text} (h : matchTable u line = some p) :
    startsWithName u ('@' :: tableName) line = true := by
  obtain ⟨rest, hrest, -⟩ := Option.bind_eq_some_iff.1 h
  have hword : u.word ' ' = false := by
    rw [u.word_ascii ' ' (by decide)]
    decide
  have hline : afterWord ('@' :: tableName) line = some (" = constant [".toList ++ rest) := by
    rw [afterWord_eq_some hrest, ← List.cons_append, List.append_assoc, afterWord_append]
  rw [startsWithName, hline]
  simp [hword]

/-- A module without a table has no line that is read as one. -/
theorem findSome?_body (h : hasTable u source = false) :
    ((source.rdropWhile (· == '\n')).splitOn '\n').findSome? (matchTable u) = none := by
  rw [List.findSome?_eq_none_iff]
  intro line hline
  obtain ⟨n, hsource⟩ := exists_newlines source
  have hmem : line ∈ source.splitOn '\n' := by
    rw [hsource]
    exact mem_splitOn_of_append hline
  by_contra hne
  obtain ⟨p, hp⟩ := Option.ne_none_iff_exists'.1 hne
  have hhas : hasTable u source = true :=
    List.any_eq_true.2 ⟨line, hmem, by rw [startsWithName_of_matchTable hp]; rfl⟩
  rw [h] at hhas
  cases hhas

theorem matchTable_tableLine (regions : List WritableGlobal) :
    matchTable u (tableLine regions) = some (regions.length, initializer regions ++ ", align 8".toList) := by
  have hline : tableLine regions = ('@' :: (tableName ++ " = constant [".toList)) ++
      (decimal regions.length ++ (" x \x7b ptr, i64 \x7d] ".toList ++ (initializer regions ++ ", align 8".toList))) := by
    rw [tableLine, List.cons_append, List.append_assoc]
  have hdigits : ∀ c ∈ decimal regions.length, (u.decimal c).isSome = true := by
    intro c hc
    have hdigit := isDigit_of_mem_decimal hc
    rw [u.decimal_ascii c (by have := isDigit_range hdigit; omega), decDigit_isSome, hdigit]
  have hblank : ∀ rest : Text, ∀ c ∈ (" x \x7b ptr, i64 \x7d] ".toList ++ rest).head?,
      (u.decimal c).isSome = false := by
    intro rest c hc
    have hc : c = ' ' := (Option.some.inj hc).symm
    rw [hc, u.decimal_ascii ' ' (by decide)]
    rfl
  have hcount : readNumber u.decimal 10 (decimal regions.length) = some regions.length := by
    refine Eq.trans ?_ (readNumber_decimal regions.length)
    rw [readNumber, readNumber, readDigits_congr]
    intro c hc
    exact u.decimal_ascii c (by have := isDigit_range (isDigit_of_mem_decimal hc); omega)
  rw [hline, matchTable, afterWord_append, Option.bind_eq_bind, Option.bind_some,
    List.takeWhile_append_of_pos hdigits, takeWhile_of_head (hblank _), List.append_nil, hcount,
    Option.bind_eq_bind, Option.bind_some, List.dropWhile_append_of_pos hdigits, dropWhile_of_head (hblank _),
    afterWord_append]
  rfl

/-- **The table is found again.** -/
theorem findTable_withTable (h : hasTable u source = false) (hline : '\n' ∉ tableLine regions) :
    findTable u (withTable source regions) =
      some (regions.length, initializer regions ++ ", align 8".toList) := by
  have hempty : matchTable u [] = none := rfl
  have hone : (tableLine regions).splitOn '\n' = [tableLine regions] := by
    rw [List.splitOn_eq_splitOnP]
    exact List.splitOnP_eq_singleton fun c hc => by
      rw [beq_eq_false_iff_ne]
      rintro rfl
      exact hline hc
  rw [findTable, withTable, splitOn_append_newline, List.findSome?_append, findSome?_body h, Option.none_or,
    show '\n' :: (tableLine regions ++ '\n' :: (countLine regions ++ ['\n'])) =
      [] ++ '\n' :: (tableLine regions ++ '\n' :: (countLine regions ++ ['\n'])) from rfl,
    splitOn_append_newline, splitOn_append_newline, hone, List.findSome?_append, List.splitOn_nil,
    List.findSome?_cons, hempty, List.findSome?_nil, Option.none_or, List.findSome?_append, List.findSome?_cons,
    matchTable_tableLine]
  rfl

end Modules

/-! ## Globals -/

section Globals

variable {line s rest found : Text} {region : WritableGlobal}

theorem subset_of_afterWord {word : Text} (h : afterWord word s = some rest) : rest ⊆ s := by
  rw [afterWord_eq_some h]
  exact List.subset_append_right _ _

theorem subset_of_matchKind {writable : Bool} (h : matchKind s = some (writable, rest)) : rest ⊆ s := by
  unfold matchKind at h
  split at h
  · rename_i after hafter
    split at h
    · obtain ⟨-, rfl⟩ := Prod.mk.inj (Option.some.inj h)
      exact List.Subset.trans (List.dropWhile_sublist _).subset (subset_of_afterWord (by assumption))
    · cases h
  · split at h
    · obtain ⟨-, rfl⟩ := Prod.mk.inj (Option.some.inj h)
      exact List.Subset.trans (List.dropWhile_sublist _).subset (subset_of_afterWord (by assumption))
    · cases h
  · cases h

theorem subset_of_matchAttributes {n : ℕ} {attributes attributes' : List Text} {writable : Bool}
    (h : matchAttributes u n attributes s = some (attributes', writable, rest)) : rest ⊆ s := by
  induction n generalizing attributes s with
  | zero => cases h
  | succ n ih =>
    rw [matchAttributes] at h
    split at h
    · rename_i hkind
      obtain ⟨-, h⟩ := Prod.mk.inj (Option.some.inj h)
      obtain ⟨rfl, rfl⟩ := Prod.mk.inj h
      exact subset_of_matchKind hkind
    · dsimp only at h
      split at h
      · cases h
      · exact List.Subset.trans (ih h)
          (List.Subset.trans (List.dropWhile_sublist _).subset (List.dropWhile_sublist _).subset)

/-- The name of a global can be read again, and what is read stands in its line. -/
theorem matchGlobal_eq_some {g : GlobalLine} (h : matchGlobal u line = some g) :
    (∃ bare, g.name = '@' :: bare ∧
      ∀ t : Text, (∀ c ∈ t.head?, isNameChar c = false) → matchName (bare ++ t) = some (bare, t)) ∧
    g.name ⊆ line ∧ g.rest ⊆ line := by
  unfold matchGlobal at h
  split at h
  · rename_i s
    obtain ⟨⟨bare, after⟩, hname, h⟩ := Option.bind_eq_some_iff.1 h
    obtain ⟨hs, hagain⟩ := matchName_eq_some hname
    dsimp only at h
    split at h
    · rename_i after' hafter
      obtain ⟨⟨attributes, writable, rest⟩, hattributes, rfl⟩ := Option.map_eq_some_iff.1 h
      refine ⟨⟨bare, rfl, hagain⟩, ?_, ?_⟩
      · rw [hs, ← List.cons_append]
        exact List.subset_append_left _ _
      · have hafter' : after' ⊆ after := fun c hc =>
          (List.dropWhile_sublist _).subset (hafter ▸ List.mem_cons_of_mem _ hc)
        refine List.Subset.trans (subset_of_matchAttributes hattributes)
          (List.Subset.trans (List.dropWhile_sublist _).subset ?_)
        rw [hs, ← List.cons_append]
        exact List.Subset.trans hafter' (List.subset_append_right _ _)
    · cases h
  · cases h

theorem subset_of_balancedType {depth : ℕ} (h : balancedType depth s = some found) : found ⊆ s := by
  induction s generalizing depth found with
  | nil => cases h
  | cons c s ih =>
    have hmap : ∀ {depth : ℕ}, (balancedType depth s).map (c :: ·) = some found → found ⊆ c :: s := by
      intro depth h
      obtain ⟨found', hfound', rfl⟩ := Option.map_eq_some_iff.1 h
      exact List.cons_subset_cons c (ih hfound')
    rw [balancedType] at h
    split at h
    · exact hmap h
    · split at h
      · split at h
        · obtain rfl := Option.some.inj h
          exact List.cons_subset_cons c (List.nil_subset s)
        · exact hmap h
      · exact hmap h

theorem prefix_of_addressSpace : addressSpace u s <+: s := by
  unfold addressSpace
  dsimp only
  split
  · exact List.nil_prefix
  · rename_i rest hrest
    split
    · rename_i after hafter
      split
      · exact List.nil_prefix
      · refine ⟨after, ?_⟩
        calc _ = s.takeWhile isSpace ++ ("addrspace(".toList ++
              ((rest.takeWhile fun c => (u.decimal c).isSome) ++ ')' :: after)) := by
              simp only [List.append_assoc, List.singleton_append]
          _ = s.takeWhile isSpace ++ s.dropWhile isSpace := by
              rw [← hafter, List.takeWhile_append_dropWhile, ← afterWord_eq_some hrest]
          _ = s := List.takeWhile_append_dropWhile
    · exact List.nil_prefix

theorem subset_of_wordType (h : wordType u s = some found) : found ⊆ s := by
  unfold wordType at h
  split at h
  · rename_i rest
    obtain ⟨⟨name, after⟩, hname, rfl⟩ := Option.map_eq_some_iff.1 h
    rw [(matchName_eq_some hname).1]
    exact List.cons_subset_cons _ (List.subset_append_left _ _)
  · rename_i c rest _
    split at h
    · obtain rfl := Option.some.inj h
      have hrest : rest = (rest.takeWhile fun c => c.isLower || c.isDigit) ++
          rest.dropWhile fun c => c.isLower || c.isDigit := List.takeWhile_append_dropWhile.symm
      intro d hd
      rcases List.mem_append.1 hd with hd | hd
      · rcases List.mem_cons.1 hd with rfl | hd
        · exact List.mem_cons_self
        · exact List.mem_cons_of_mem _ ((List.takeWhile_sublist _).subset hd)
      · exact List.mem_cons_of_mem _ ((List.dropWhile_sublist _).subset (prefix_of_addressSpace.subset hd))
    · cases h
  · cases h

theorem subset_of_splitType (h : splitType u s = .ok found) : found ⊆ s := by
  unfold splitType at h
  split at h
  · cases h
  · rename_i c rest hrest
    have hsub : c :: rest ⊆ s := by
      rw [← hrest]
      exact (List.dropWhile_sublist _).subset
    split at h
    · split at h
      · rename_i found' hfound
        obtain rfl := Except.ok.inj h
        exact List.Subset.trans (subset_of_balancedType hfound) hsub
      · cases h
    · split at h
      · rename_i found' hfound
        obtain rfl := Except.ok.inj h
        exact List.Subset.trans (subset_of_wordType hfound) hsub
      · cases h

theorem readGlobal_eq_some (h : readGlobal u line = .ok (some region)) :
    ∃ g, matchGlobal u line = some g ∧ region.name = g.name ∧ splitType u g.rest = .ok region.llvmType := by
  unfold readGlobal at h
  split at h
  · cases h
  · rename_i g hg
    split at h
    · cases hfound : splitType u g.rest with
      | error e =>
        rw [hfound] at h
        cases h
      | ok found =>
        rw [hfound] at h
        obtain rfl := Option.some.inj (Except.ok.inj h)
        exact ⟨g, hg, rfl, hfound⟩
    · cases h

/-- A global that is read has a name that can be read again, and a text from its line. -/
theorem legible_of_readGlobal (h : readGlobal u line = .ok (some region))
    (htype : contains entryMark region.llvmType = false) :
    Legible region ∧ region.name ⊆ line ∧ region.llvmType ⊆ line := by
  obtain ⟨g, hg, hname, hfound⟩ := readGlobal_eq_some h
  obtain ⟨hagain, hnameLine, hrestLine⟩ := matchGlobal_eq_some hg
  rw [← hname] at hagain hnameLine
  exact ⟨⟨hagain, htype⟩, hnameLine, List.Subset.trans (subset_of_splitType hfound) hrestLine⟩

/-- A constant is not recorded. -/
theorem readGlobal_constant (name : Text) (h : matchName name = some (name, [])) (t : Text) :
    readGlobal u ('@' :: (name ++ (" = constant ".toList ++ t))) = .ok none := by
  have hmatch : matchName (name ++ (" = constant ".toList ++ t)) = some (name, " = constant ".toList ++ t) := by
    refine (matchName_eq_some h).2 _ fun c hc => ?_
    obtain rfl := Option.some.inj hc
    decide
  have hkind : matchKind ("constant ".toList ++ t) = some (false, t.dropWhile isSpace) := rfl
  have hglobal : matchGlobal u ('@' :: (name ++ (" = constant ".toList ++ t))) =
      some ⟨'@' :: name, [], false, t.dropWhile isSpace⟩ := by
    rw [matchGlobal, hmatch, Option.bind_some]
    show (matchAttributes u (("constant ".toList ++ t).length + 1) [] ("constant ".toList ++ t)).map _ = _
    rw [matchAttributes, hkind]
    rfl
  rw [readGlobal, hglobal]
  rfl

theorem collectGlobals_append (ks ls : List Text) : collectGlobals u (ks ++ ls) = (do
    let found ← collectGlobals u ks
    let rest ← collectGlobals u ls
    return found ++ rest) := by
  induction ks with
  | nil => cases h : collectGlobals u ls <;> rw [List.nil_append, h] <;> rfl
  | cons line ks ih =>
    rw [List.cons_append, collectGlobals, collectGlobals, ih]
    cases readGlobal u line with
    | error e => rfl
    | ok region =>
      cases collectGlobals u ks with
      | error e => rfl
      | ok found =>
        cases collectGlobals u ls with
        | error e => rfl
        | ok rest => exact congrArg _ (List.append_assoc _ _ _).symm

/-- An empty line has no global. -/
theorem collectGlobals_solid (ls : List Text) : collectGlobals u (solid ls) = collectGlobals u ls := by
  induction ls with
  | nil => rfl
  | cons line ls ih =>
    cases line with
    | nil =>
      rw [solid_nil_cons, ih, collectGlobals]
      cases collectGlobals u ls <;> rfl
    | cons c line =>
      show collectGlobals u ((c :: line) :: solid ls) = _
      rw [collectGlobals, collectGlobals, ih]

theorem mem_of_collectGlobals {ls : List Text} {regions : List WritableGlobal}
    (h : collectGlobals u ls = .ok regions) (hregion : region ∈ regions) :
    ∃ line ∈ ls, readGlobal u line = .ok (some region) := by
  induction ls generalizing regions with
  | nil =>
    obtain rfl := Except.ok.inj h
    cases hregion
  | cons line ls ih =>
    rw [collectGlobals] at h
    obtain ⟨found, hfound, h⟩ := bind_eq_ok.1 h
    obtain ⟨rest, hrest, h⟩ := bind_eq_ok.1 h
    obtain rfl := Except.ok.inj h
    rcases List.mem_append.1 hregion with hmem | hmem
    · obtain rfl : found = some region := Option.mem_toList.1 hmem
      exact ⟨line, List.mem_cons_self, hfound⟩
    · obtain ⟨other, hother, hread⟩ := ih hrest hmem
      exact ⟨other, List.mem_cons_of_mem _ hother, hread⟩

end Globals

/-! ## The whole text -/

section RoundTrip

variable {source text later : Text} {regions kept : List WritableGlobal} {region : WritableGlobal} {count : ℕ}

theorem appendStateTable_eq_ok (h : appendStateTable u source none = .ok (text, count)) :
    hasTable u source = false ∧ ∃ regions, writableGlobals u source = .ok regions ∧
      text = withTable source regions ∧ count = regions.length := by
  unfold appendStateTable at h
  split at h
  · cases h
  · rename_i hhas
    obtain ⟨regions, hregions, h⟩ := bind_eq_ok.1 h
    rw [recordedGlobals] at hregions
    obtain ⟨found, hfound, hregions⟩ := bind_eq_ok.1 hregions
    obtain rfl := Except.ok.inj hregions
    obtain ⟨htext, hcount⟩ := Prod.mk.inj (Except.ok.inj h)
    exact ⟨eq_false_of_ne_true hhas, found, hfound, htext.symm, hcount.symm⟩

/-- The regions of a module have no line break. -/
theorem notBreak_of_writableGlobals (h : writableGlobals u source = .ok regions)
    (htypes : ∀ region ∈ regions, contains entryMark region.llvmType = false) (hregion : region ∈ regions) :
    Legible region ∧ (∀ c ∈ region.name, isLineBreak c = false) ∧
      ∀ c ∈ region.llvmType, isLineBreak c = false := by
  obtain ⟨line, hline, hread⟩ := mem_of_collectGlobals h hregion
  obtain ⟨hlegible, hname, htype⟩ := legible_of_readGlobal hread (htypes region hregion)
  have hplain := notBreak_of_mem_splitlines hline
  exact ⟨hlegible, fun c hc => hplain c (hname hc), fun c hc => hplain c (htype hc)⟩

theorem notBreak_of_all {s : Text} (h : (s.all fun c => !isLineBreak c) = true) : ∀ c ∈ s, isLineBreak c = false :=
  fun c hc => by simpa using List.all_eq_true.1 h c hc

theorem notBreak_append {s t : Text} (hs : ∀ c ∈ s, isLineBreak c = false)
    (ht : ∀ c ∈ t, isLineBreak c = false) : ∀ c ∈ s ++ t, isLineBreak c = false := fun c hc => (List.mem_append.1 hc).elim (hs c) (ht c)

theorem notBreak_decimal (n : ℕ) : ∀ c ∈ decimal n, isLineBreak c = false := by
  intro c hc
  have hdigit := isDigit_range (isDigit_of_mem_decimal hc)
  simp only [isLineBreak, Bool.or_eq_false_iff, Bool.and_eq_false_iff, decide_eq_false_iff_not, beq_eq_false_iff_ne]
  omega

theorem notBreak_tableLine (h : ∀ region ∈ regions, (∀ c ∈ region.name, isLineBreak c = false) ∧
    ∀ c ∈ region.llvmType, isLineBreak c = false) : ∀ c ∈ tableLine regions, isLineBreak c = false := by
  have hentry : ∀ region ∈ regions, ∀ c ∈ tableEntry region, isLineBreak c = false := by
    intro region hregion
    obtain ⟨hname, htype⟩ := h region hregion
    exact notBreak_append (notBreak_of_all rfl) (notBreak_append hname (notBreak_append (notBreak_of_all rfl)
      (notBreak_append (notBreak_of_all rfl) (notBreak_append htype (notBreak_of_all rfl)))))
  have hentries : ∀ c ∈ List.intercalate ", ".toList (regions.map tableEntry), isLineBreak c = false := by
    induction regions with
    | nil => exact fun c hc => nomatch hc
    | cons region regions ih =>
      have hfirst := hentry region List.mem_cons_self
      have ih := ih (fun other hother => h other (List.mem_cons_of_mem _ hother))
        fun other hother => hentry other (List.mem_cons_of_mem _ hother)
      cases regions with
      | nil =>
        rw [List.map_singleton, List.intercalate_singleton]
        exact hfirst
      | cons other regions =>
        rw [List.map_cons, List.map_cons, List.intercalate_cons_cons, List.append_assoc]
        exact notBreak_append hfirst (notBreak_append (notBreak_of_all rfl) ih)
  have hinitializer : ∀ c ∈ initializer regions, isLineBreak c = false := by
    unfold initializer
    split
    · exact notBreak_of_all rfl
    · rw [← List.singleton_append]
      exact notBreak_append (notBreak_of_all rfl) (notBreak_append hentries (notBreak_of_all rfl))
  rw [tableLine, ← List.cons_append]
  exact notBreak_append (notBreak_of_all rfl) (notBreak_append (notBreak_of_all rfl) (notBreak_append (notBreak_decimal _)
    (notBreak_append (notBreak_of_all rfl) (notBreak_append hinitializer (notBreak_of_all rfl)))))

theorem notBreak_countLine (regions : List WritableGlobal) : ∀ c ∈ countLine regions, isLineBreak c = false := by
  rw [countLine, ← List.cons_append]
  exact notBreak_append (notBreak_of_all rfl) (notBreak_append (notBreak_of_all rfl) (notBreak_append (notBreak_decimal _) (notBreak_of_all rfl)))

theorem solid_splitlines_newlines (s : Text) (n : ℕ) :
    solid (splitlines (s ++ List.replicate n '\n')) = solid (splitlines s) := by
  induction n with
  | zero => rw [List.replicate_zero, List.append_nil]
  | succ n ih => rw [List.replicate_succ', ← List.append_assoc, solid_splitlines_newline, ih]

/-- **The table adds no writable global.** -/
theorem writableGlobals_withTable (h : ∀ c ∈ tableLine regions, isLineBreak c = false) :
    writableGlobals u (withTable source regions) = writableGlobals u source := by
  obtain ⟨n, hsource⟩ := exists_newlines source
  have hadded : splitlines ('\n' :: (tableLine regions ++ '\n' :: (countLine regions ++ ['\n']))) =
      [[], tableLine regions, countLine regions] := by
    have hunlines : tableLine regions ++ '\n' :: (countLine regions ++ ['\n']) =
        unlines [tableLine regions, countLine regions] := by
      simp [unlines]
    rw [splitlines_newline, hunlines, splitlines_unlines]
    intro l hl
    rcases List.mem_pair.1 hl with rfl | rfl
    · exact h
    · exact notBreak_countLine regions
  have hnone : collectGlobals u [[], tableLine regions, countLine regions] = .ok [] := by
    have hempty : readGlobal u [] = .ok none := rfl
    have htable : readGlobal u (tableLine regions) = .ok none := readGlobal_constant tableName rfl
      ('[' :: (decimal regions.length ++ (" x \x7b ptr, i64 \x7d] ".toList ++ (initializer regions ++ ", align 8".toList))))
    have hcount : readGlobal u (countLine regions) = .ok none := readGlobal_constant countName rfl
      ("i64 ".toList ++ (decimal regions.length ++ ", align 8".toList))
    rw [collectGlobals, collectGlobals, collectGlobals, collectGlobals, hempty, htable, hcount]
    rfl
  rw [writableGlobals, withTable, splitlines_append_newline, hadded, collectGlobals_append, hnone,
    ← collectGlobals_solid, solid_splitlines_newline, ← solid_splitlines_newlines _ n, ← hsource,
    collectGlobals_solid, writableGlobals]
  cases collectGlobals u (splitlines source) with
  | error e => rfl
  | ok found => exact congrArg Except.ok (List.append_nil found)

/-- Going through a list up to the first element that fails. -/
theorem mapM_eq_find? {α β ε : Type} {f : β → Except ε α} {g : α → β} {e : α → ε} {p : α → Bool} {l : List α}
    (h : ∀ a ∈ l, f (g a) = if p a then .error (e a) else .ok a) :
    (l.map g).mapM f = match l.find? p with
      | none => .ok l
      | some a => .error (e a) := by
  induction l with
  | nil => rfl
  | cons a l ih =>
    rw [List.map_cons, List.mapM_cons, h a List.mem_cons_self,
      ih fun b hb => h b (List.mem_cons_of_mem _ hb)]
    cases hp : p a with
    | true => rw [List.find?_cons_of_pos hp]; rfl
    | false =>
      rw [List.find?_cons_of_neg (by rw [hp]; exact Bool.false_ne_true)]
      cases l.find? p <;> rfl

/-- A region that is still there is found under its name. -/
theorem regionOf_kept (hnames : (regions.map WritableGlobal.name).Nodup) (hkept : kept.Sublist regions)
    (hregion : region ∈ regions) : regionOf kept region.name =
      if decide (region ∉ kept) then .error (.missingGlobal region.name) else .ok region := by
  have hone : ∀ other ∈ kept, other.name = region.name → other = region := fun other hother heq =>
    List.inj_on_of_nodup_map hnames (hkept.subset hother) hregion heq
  unfold regionOf
  by_cases hmem : region ∈ kept
  · cases hfind : kept.reverse.find? fun other => other.name = region.name with
    | none =>
      have hnone := List.find?_eq_none.1 hfind region (List.mem_reverse.2 hmem)
      exact absurd (decide_eq_true rfl) hnone
    | some other =>
      have hname : other.name = region.name := by simpa using List.find?_some hfind
      rw [hone other (List.mem_reverse.1 (List.mem_of_find?_eq_some hfind)) hname]
      simp [hmem]
  · have hnone : (kept.reverse.find? fun other => other.name = region.name) = none := by
      refine List.find?_eq_none.2 fun other hother => ?_
      intro hname
      exact hmem (hone other (List.mem_reverse.1 hother) (of_decide_eq_true hname) ▸ List.mem_reverse.1 hother)
    rw [hnone]
    simp [hmem]

/-- **The globals of a module are read back from its state table.**  A later text with this table, where some of
them are not written any more, is refused under the name of the first of these. -/
theorem stateTable_roundTrip (h : appendStateTable u source none = .ok (text, count))
    (hregions : writableGlobals u source = .ok regions) (hnames : (regions.map WritableGlobal.name).Nodup)
    (htypes : ∀ region ∈ regions, contains entryMark region.llvmType = false) :
    count = regions.length ∧ stateTableGlobals u text = .ok regions ∧
      ∀ later kept, findTable u later = findTable u text → writableGlobals u later = .ok kept →
        kept.Sublist regions → stateTableGlobals u later =
          match regions.find? fun region => region ∉ kept with
          | none => .ok regions
          | some gone => .error (.missingGlobal gone.name) := by
  obtain ⟨hhas, found, hfound, rfl, rfl⟩ := appendStateTable_eq_ok h
  obtain rfl := Except.ok.inj (hfound.symm.trans hregions)
  have hplain : ∀ region ∈ found, _ := fun region => notBreak_of_writableGlobals hregions htypes
  have hbreak := notBreak_tableLine fun region hregion => (hplain region hregion).2
  have htable : findTable u (withTable source found) = _ := findTable_withTable hhas fun hmem =>
    absurd (hbreak _ hmem) (by decide)
  have hread : ∀ later kept, findTable u later = findTable u (withTable source found) →
      writableGlobals u later = .ok kept → kept.Sublist found → stateTableGlobals u later =
        match found.find? fun region => region ∉ kept with
        | none => .ok found
        | some gone => .error (.missingGlobal gone.name) := by
    intro later kept hlater hkept hsub
    have hentries := namesOf_initializer fun region hregion => (hplain region hregion).1
    rw [namesOf] at hentries
    rw [stateTableGlobals, hlater, htable]
    dsimp only
    rw [hentries, List.length_map, List.dedup_eq_self.2 hnames, List.length_map, if_neg (by simp), hkept]
    refine (mapM_eq_find? fun region hregion => regionOf_kept hnames hsub hregion).trans ?_
    cases found.find? fun region => decide (region ∉ kept) <;> rfl
  refine ⟨rfl, ?_, hread⟩
  rw [hread _ found rfl ((writableGlobals_withTable hbreak).trans hregions) (List.Sublist.refl _)]
  have hnone : (found.find? fun region => decide (region ∉ found)) = none :=
    List.find?_eq_none.2 fun region hregion => by simpa using hregion
  rw [hnone]

/-- Patterns of ASCII alone. -/
def asciiPattern : PatternData := { asciiData with word := isWordChar, word_ascii := fun _ _ => rfl }

/-- Two globals are read back; once the second is not written any more, the table is refused under its name. -/
theorem stateTable_roundTrip_two :
    let regions := [WritableGlobal.mk "@a".toList "i32".toList, ⟨"@b".toList, "i64".toList⟩]
    let text := withTable "@a = global i32 0\n@b = global i64 0\n".toList regions
    let later := withTable "@a = global i32 0\n".toList regions
    stateTableGlobals asciiPattern text = .ok regions ∧
      stateTableGlobals asciiPattern later = .error (.missingGlobal "@b".toList) := by
  intro regions text later
  obtain ⟨-, hread, hlater⟩ := stateTable_roundTrip
    (show appendStateTable asciiPattern "@a = global i32 0\n@b = global i64 0\n".toList none = .ok (text, 2) from rfl)
    (show writableGlobals asciiPattern "@a = global i32 0\n@b = global i64 0\n".toList = .ok regions by decide +kernel)
    (by decide) (by decide)
  have htable : findTable asciiPattern later = findTable asciiPattern text := by decide +kernel
  have hkept : writableGlobals asciiPattern later = .ok [⟨"@a".toList, "i32".toList⟩] := by decide +kernel
  exact ⟨hread, hlater later _ htable hkept (by decide)⟩

/-- A global that is gone from a later text is an error; so are two globals of one name, and a type whose name
reads as an entry. -/
theorem stateTable_not_surviving :
    stateTableGlobals asciiPattern (withTable "@a = global i32 0\n".toList
        [⟨"@a".toList, "i32".toList⟩, ⟨"@b".toList, "i64".toList⟩]) = .error (.missingGlobal "@b".toList) ∧
      appendStateTable asciiPattern "@a = global i32 0\n@b = global i64 0\n".toList none =
        .ok (withTable "@a = global i32 0\n@b = global i64 0\n".toList
          [⟨"@a".toList, "i32".toList⟩, ⟨"@b".toList, "i64".toList⟩], 2) ∧
      ((appendStateTable asciiPattern "@a = global i32 0\n@a = global i32 0\n".toList none).bind fun p =>
        stateTableGlobals asciiPattern p.1) = .error .countMismatch ∧
      ((appendStateTable asciiPattern
          "@a = global %\"\x7b ptr, i64 \x7d \x7b ptr @x, i64 ptrtoint\" zeroinitializer\n".toList none).bind fun p =>
        stateTableGlobals asciiPattern p.1) = .error .countMismatch := by
  -- the kernel reads a list of characters faster than a literal
  rw [show String.toList "@a = global i32 0\n" = _ from String.toList_ofList,
    show String.toList "@a = global i32 0\n@b = global i64 0\n" = _ from String.toList_ofList,
    show String.toList "@a = global i32 0\n@a = global i32 0\n" = _ from String.toList_ofList,
    show String.toList "@a = global %\"\x7b ptr, i64 \x7d \x7b ptr @x, i64 ptrtoint\" zeroinitializer\n" = _
      from String.toList_ofList]
  refine ⟨?_, ?_, ?_, ?_⟩ <;> decide +kernel

end RoundTrip

end SemantiST.Harness
