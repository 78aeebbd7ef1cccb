import SemantiST.Intake.Build
import SemantiST.Intake.Units

/-!
# Declarations of a global variable list

The declarations that a global variable list consists of, and where the span that `_declaration_span` finds
is one of them.
-/

namespace SemantiST.Intake.Build

open Lib

/-! ## Whole declarations -/

/-- Up to the semicolon that ends a declaration; those of an inline structure do not. -/
def takeDeclaration : ℕ → List LosslessToken → Option (List LosslessToken × List LosslessToken)
  | _, [] => none
  | depth, token :: rest =>
    if token.Is ";" ∧ depth = 0 then some ([token], rest)
    else
      let depth :=
        if token.upper = "STRUCT".toList then depth + 1
        else if token.upper = "END_STRUCT".toList then depth - 1
        else depth
      (takeDeclaration depth rest).map fun (declaration, after) => (token :: declaration, after)

def declarationsFrom : ℕ → List LosslessToken → List (List LosslessToken)
  | 0, _ => []
  | fuel + 1, tokens =>
    match takeDeclaration 0 tokens with
    | some (declaration, after) => declaration :: declarationsFrom fuel after
    | none => []

/-- The tokens of a global variable list after its keyword and its modifiers. -/
def listBody (tokens : List LosslessToken) : List LosslessToken :=
  tokens.tail.dropWhile fun token => Among token.upper globalModifiers

/-- The declarations of a global variable list. -/
def listDeclarations (tokens : List LosslessToken) : List (List LosslessToken) :=
  declarationsFrom tokens.length (listBody tokens)

/-- From the first token to the end of the last one. -/
def extent (tokens : List LosslessToken) : ℕ × ℕ :=
  ((tokens.head?.map LosslessToken.start).getD 0, (tokens.getLast?.map LosslessToken.stop).getD 0)

/-- The declaration that a place in the row of declarations lies in, and the place in it. -/
def placeIn : ℕ → List (List LosslessToken) → Option (List LosslessToken × ℕ)
  | _, [] => none
  | place, declaration :: declarations =>
    if place < declaration.length then some (declaration, place)
    else placeIn (place - declaration.length) declarations

/-- The place of an offset among the tokens of a unit. -/
def placeOf (index : SourceIndex) (unit : Unit) (offset : ℕ) : ℕ :=
  min (index.significantIndex offset) (index.significantIndex unit.stop - 1) - index.significantIndex unit.start

/-- The declaration that an offset lies in, with the place in it. -/
def declarationAt (index : SourceIndex) (unit : Unit) (offset : ℕ) : Option (List LosslessToken × ℕ) :=
  let tokens := unitTokens index unit
  let header := tokens.length - (listBody tokens).length
  let place := placeOf index unit offset
  if place < header then none else placeIn (place - header) (listDeclarations tokens)

/-- A word of the header of a global variable list. -/
def isHeaderWord (token : LosslessToken) : Bool := Among token.upper ("VAR_GLOBAL" :: globalModifiers)

/-- An offset in a declaration, not behind a semicolon of an inline structure; the declaration does not
begin with a word of the header. -/
def InDeclaration (index : SourceIndex) (unit : Unit) (offset : ℕ) : Prop :=
  (declarationAt index unit offset).any fun (declaration, place) =>
    !(declaration.take place).any (·.Is ";") && (place = 0 || !declaration.head?.any isHeaderWord)

instance (index : SourceIndex) (unit : Unit) (offset : ℕ) : Decidable (InDeclaration index unit offset) :=
  inferInstanceAs (Decidable (_ = true))

/-! ## The span that is found -/

theorem takeDeclaration_spec {depth : ℕ} {tokens declaration after : List LosslessToken}
    (h : takeDeclaration depth tokens = some (declaration, after)) :
    tokens = declaration ++ after ∧ ∃ inner semicolon, declaration = inner ++ [semicolon] ∧ semicolon.Is ";" = true := by
  induction tokens generalizing depth declaration with
  | nil => cases h
  | cons token rest ih =>
    unfold takeDeclaration at h
    split at h
    · rename_i hsemicolon
      cases h
      exact ⟨rfl, [], token, rfl, hsemicolon.1⟩
    · obtain ⟨⟨inner, after⟩, hrest, heq⟩ := Option.map_eq_some_iff.1 h
      cases heq
      obtain ⟨rfl, before, semicolon, rfl, hsemicolon⟩ := ih hrest
      exact ⟨rfl, token :: before, semicolon, rfl, hsemicolon⟩

/-- Without an inline structure before it, the first semicolon ends a declaration. -/
theorem length_takeWhile_declaration {tokens declaration after : List LosslessToken}
    (h : takeDeclaration 0 tokens = some (declaration, after))
    (hflat : ∀ token ∈ declaration.takeWhile fun token => !token.Is ";", token.upper ≠ "STRUCT".toList) :
    (declaration.takeWhile fun token => !token.Is ";").length + 1 = declaration.length := by
  induction tokens generalizing declaration with
  | nil => cases h
  | cons token rest ih =>
    unfold takeDeclaration at h
    split at h
    · rename_i hsemicolon
      cases h
      rw [List.takeWhile_cons_of_neg (by simp [hsemicolon.1])]
      rfl
    · rename_i hsemicolon
      have hopen : (fun token : LosslessToken => !token.Is ";") token = true := by simpa using hsemicolon
      obtain ⟨⟨inner, after⟩, hrest, heq⟩ := Option.map_eq_some_iff.1 h
      cases heq
      rw [List.takeWhile_cons_of_pos (p := fun token : LosslessToken => !token.Is ";") hopen] at hflat ⊢
      rw [if_neg (hflat token List.mem_cons_self)] at hrest
      have hdepth : (if token.upper = "END_STRUCT".toList then 0 - 1 else 0) = 0 := by split <;> rfl
      rw [hdepth] at hrest
      have := ih hrest fun token htoken => hflat token (List.mem_cons_of_mem _ htoken)
      simp only [List.length_cons]
      omega

theorem declarationsFrom_spec (fuel : ℕ) (tokens : List LosslessToken) :
    (∃ rest, tokens = (declarationsFrom fuel tokens).flatten ++ rest) ∧
      ∀ declaration ∈ declarationsFrom fuel tokens, ∃ tokens after,
        takeDeclaration 0 tokens = some (declaration, after) := by
  induction fuel generalizing tokens with
  | zero => exact ⟨⟨tokens, rfl⟩, by simp [declarationsFrom]⟩
  | succ fuel ih =>
    unfold declarationsFrom
    split
    · rename_i declaration after h
      obtain ⟨⟨rest, hrest⟩, hall⟩ := ih after
      refine ⟨⟨rest, ?_⟩, ?_⟩
      · rw [(takeDeclaration_spec h).1, List.flatten_cons, List.append_assoc, ← hrest]
      · intro other hother
        rcases List.mem_cons.1 hother with rfl | hother
        · exact ⟨tokens, after, h⟩
        · exact hall other hother
    · exact ⟨⟨tokens, rfl⟩, by simp⟩

theorem placeIn_spec {place i : ℕ} {declarations : List (List LosslessToken)} {declaration : List LosslessToken}
    (h : placeIn place declarations = some (declaration, i)) :
    i < declaration.length ∧ ∃ before after, declarations = before ++ declaration :: after ∧
      place = before.flatten.length + i := by
  induction declarations generalizing place with
  | nil => cases h
  | cons first declarations ih =>
    unfold placeIn at h
    split at h
    · rename_i hlt
      cases h
      exact ⟨hlt, [], declarations, rfl, by simp⟩
    · obtain ⟨hlt, before, after, rfl, hplace⟩ := ih h
      refine ⟨hlt, first :: before, after, rfl, ?_⟩
      rw [List.flatten_cons, List.length_append]
      omega

section Lists

variable {α : Type} {p : α → Bool}

/-- Backwards up to a place where `p` fails, which may be the end of an earlier part. -/
theorem length_takeWhile_reverse {modifiers before taken : List α} (hmodifiers : ∀ a ∈ modifiers, p a = true)
    (hbefore : before = [] ∨ ∃ inner last, before = inner ++ [last] ∧ p last = false)
    (htaken : ∀ a ∈ taken, p a = true) :
    ((modifiers ++ before ++ taken).reverse.takeWhile p).length =
      taken.length + if before = [] then modifiers.length else 0 := by
  rw [List.reverse_append, List.takeWhile_append_of_pos (by simpa using htaken)]
  rcases hbefore with rfl | ⟨inner, last, rfl, hlast⟩
  · have hall : modifiers.reverse.takeWhile p = modifiers.reverse :=
      List.takeWhile_eq_self_iff.2 (by simpa using hmodifiers)
    simp [hall]
  · simp [hlast]

theorem takeWhile_append_of_exists {l l' : List α} (h : ∃ a ∈ l, p a = false) :
    (l ++ l').takeWhile p = l.takeWhile p := by
  induction l with
  | nil =>
    obtain ⟨a, ha, -⟩ := h
    cases ha
  | cons b l ih =>
    by_cases hb : p b = true
    · obtain ⟨a, ha, hp⟩ := h
      rcases List.mem_cons.1 ha with rfl | ha
      · rw [hb] at hp
        cases hp
      · rw [List.cons_append, List.takeWhile_cons_of_pos hb, List.takeWhile_cons_of_pos hb, ih ⟨a, ha, hp⟩]
    · rw [List.cons_append, List.takeWhile_cons_of_neg hb, List.takeWhile_cons_of_neg hb]

/-- A prefix of a span of a list, and what comes after it. -/
theorem take_drop_of_span {l : List α} {first last k : ℕ} (hk : k ≤ last) :
    (l.take k).drop first = ((l.take last).drop first).take (k - first) := by
  rw [List.take_drop, List.take_take]
  by_cases h : first ≤ k
  · rw [Nat.add_sub_cancel' h, Nat.min_eq_left hk]
  · rw [List.drop_eq_nil_of_le, List.drop_eq_nil_of_le] <;> (rw [List.length_take]; omega)

end Lists

/-- The tokens around a place in a declaration. -/
structure PlacedIn (index : SourceIndex) (unit : Unit) (offset : ℕ) (declaration : List LosslessToken) (place : ℕ) where
  keyword : LosslessToken
  modifiers : List LosslessToken
  before : List (List LosslessToken)
  rest : List LosslessToken
  tokens : unitTokens index unit = keyword :: modifiers ++ before.flatten ++ declaration ++ rest
  isModifier : ∀ token ∈ modifiers, Among token.upper globalModifiers = true
  mem : declaration ∈ listDeclarations (unitTokens index unit)
  closed : ∀ declaration ∈ before, ∃ inner semicolon, declaration = inner ++ [semicolon] ∧ semicolon.Is ";" = true
  taken : ∃ tokens after, takeDeclaration 0 tokens = some (declaration, after)
  lt : place < declaration.length
  place : placeOf index unit offset = (keyword :: modifiers ++ before.flatten).length + place

theorem declarationAt_spec {index : SourceIndex} {unit : Unit} {offset place : ℕ} {declaration : List LosslessToken}
    (h : declarationAt index unit offset = some (declaration, place)) :
    Nonempty (PlacedIn index unit offset declaration place) := by
  unfold declarationAt at h
  dsimp only at h
  split at h
  · cases h
  rename_i hheader
  obtain ⟨hlt, before, after, hdeclarations, hplace⟩ := placeIn_spec h
  obtain ⟨⟨rest, hbody⟩, hall⟩ := declarationsFrom_spec (unitTokens index unit).length (listBody (unitTokens index unit))
  change listBody (unitTokens index unit) = (listDeclarations (unitTokens index unit)).flatten ++ rest at hbody
  change ∀ declaration ∈ listDeclarations (unitTokens index unit), _ at hall
  rw [hdeclarations, List.flatten_append, List.flatten_cons] at hbody
  cases htokens : unitTokens index unit with
  | nil =>
    rw [htokens] at hbody
    have hnil := congrArg List.length hbody
    simp only [listBody, List.tail_nil, List.dropWhile_nil, List.length_nil, List.length_append] at hnil
    omega
  | cons keyword tail =>
    obtain ⟨modifiers, hmodifiers⟩ : ∃ modifiers, modifiers = tail.takeWhile fun token =>
      Among token.upper globalModifiers := ⟨_, rfl⟩
    have hsplit := List.takeWhile_append_dropWhile (p := fun token => Among token.upper globalModifiers) (l := tail)
    have hlist : listBody (unitTokens index unit) = tail.dropWhile fun token => Among token.upper globalModifiers := by
      rw [htokens]
      rfl
    rw [← hlist, hbody, ← hmodifiers] at hsplit
    have hlengths := congrArg List.length hsplit
    rw [hbody, htokens] at hheader hplace
    simp only [List.length_append, List.length_cons] at hlengths hheader hplace
    exact ⟨{
      keyword := keyword
      modifiers := modifiers
      before := before
      rest := after.flatten ++ rest
      tokens := by
        rw [htokens, ← hsplit]
        simp
      isModifier := fun token htoken => by
        rw [hmodifiers] at htoken
        simpa using List.mem_takeWhile_imp htoken
      mem := by
        rw [hdeclarations]
        exact List.mem_append_right _ List.mem_cons_self
      closed := fun other hother => by
        obtain ⟨tokens, after, htaken⟩ := hall other (by rw [hdeclarations]; exact List.mem_append_left _ hother)
        exact (takeDeclaration_spec htaken).2
      taken := hall declaration (by rw [hdeclarations]; exact List.mem_append_right _ List.mem_cons_self)
      lt := hlt
      place := by
        simp only [List.length_append, List.length_cons]
        omega }⟩

theorem not_semicolon_of_modifier {token : LosslessToken} (h : Among token.upper globalModifiers = true) :
    token.Is ";" = false := by
  by_contra hnot
  have htext : token.text = [';'] := by simpa [LosslessToken.Is] using hnot
  rw [LosslessToken.upper, htext] at h
  revert h
  decide +kernel

theorem isHeaderWord_of_modifier {token : LosslessToken} (h : Among token.upper globalModifiers = true) :
    isHeaderWord token = true := by
  rw [isHeaderWord, Among, List.any_cons, Bool.or_eq_true]
  exact .inr h

section Found

variable {index : SourceIndex} {unit : Unit} {offset place : ℕ} {declaration : List LosslessToken}

/-- The tokens of the unit before the declaration. -/
def PlacedIn.header (placed : PlacedIn index unit offset declaration place) : List LosslessToken :=
  placed.keyword :: placed.modifiers ++ placed.before.flatten

variable (placed : PlacedIn index unit offset declaration place)

theorem PlacedIn.k_eq :
    min (index.significantIndex offset) (index.significantIndex unit.stop - 1) =
      index.significantIndex unit.start + placed.header.length + place := by
  have hplace := placed.place
  have hpos : 0 < placed.header.length := by simp [PlacedIn.header]
  change placeOf index unit offset = placed.header.length + place at hplace
  unfold placeOf at hplace
  omega

theorem PlacedIn.tokens_eq :
    (index.significant.take (index.significantIndex unit.stop)).drop (index.significantIndex unit.start) =
      placed.header ++ (declaration ++ placed.rest) := by
  rw [← List.append_assoc]
  exact placed.tokens

/-- The tokens up to a place in the declaration or behind it. -/
theorem PlacedIn.take_drop {n : ℕ}
    (hn : index.significantIndex unit.start + placed.header.length + n ≤ index.significantIndex unit.stop) :
    (index.significant.take (index.significantIndex unit.start + placed.header.length + n)).drop
      (index.significantIndex unit.start) = placed.header ++ (declaration ++ placed.rest).take n := by
  rw [take_drop_of_span hn]
  rw [placed.tokens_eq, Nat.add_assoc, Nat.add_sub_cancel_left, List.take_length_add_append]

theorem PlacedIn.getElem? {n : ℕ} (hn : n < declaration.length)
    (hlt : index.significantIndex unit.start + placed.header.length + n < index.significantIndex unit.stop) :
    index.significant[index.significantIndex unit.start + placed.header.length + n]? = declaration[n]? := by
  have hget := congrArg (fun tokens => tokens[placed.header.length + n]?) placed.tokens_eq
  simp only [List.getElem?_drop, ← Nat.add_assoc] at hget
  rw [List.getElem?_take_of_lt hlt, List.getElem?_append_right (Nat.le_add_right _ _), Nat.add_sub_cancel_left,
    List.getElem?_append_left hn] at hget
  exact hget

theorem PlacedIn.start_eq (hbefore : ∀ token ∈ declaration.take place, token.Is ";" = false)
    (hhead : place = 0 ∨ declaration.head?.any isHeaderWord = false)
    (hle : index.significantIndex unit.start + placed.header.length + place ≤ index.significantIndex unit.stop) :
    declarationStart index.significant (index.significantIndex unit.start)
        (index.significantIndex unit.start + placed.header.length + place) =
      index.significantIndex unit.start + placed.header.length := by
  have htake : (declaration ++ placed.rest).take place = declaration.take place :=
    List.take_append_of_le_length (Nat.le_of_lt placed.lt)
  have hdrop := placed.take_drop hle
  rw [htake] at hdrop
  have hlength : (declaration.take place).length = place := by
    rw [List.length_take, Nat.min_eq_left (Nat.le_of_lt placed.lt)]
  -- what stands before the declaration ends with a semicolon, or is the keyword with its modifiers
  have hends : placed.before.flatten = [] ∨
      ∃ inner last, placed.before.flatten = inner ++ [last] ∧ (!last.Is ";") = false := by
    rcases List.eq_nil_or_concat placed.before with hnil | ⟨before, last, hlast⟩
    · exact .inl (by rw [hnil]; rfl)
    · obtain ⟨inner, semicolon, hinner, hsemicolon⟩ := placed.closed last (by rw [hlast]; simp)
      refine .inr ⟨before.flatten ++ inner, semicolon, ?_, by rw [hsemicolon]; rfl⟩
      rw [hlast, List.concat_eq_append, List.flatten_append, hinner]
      simp
  have hmodifiers (token : LosslessToken) (htoken : token ∈ placed.modifiers) : (!token.Is ";") = true := by
    rw [not_semicolon_of_modifier (placed.isModifier token htoken)]
    rfl
  have htaken (token : LosslessToken) (htoken : token ∈ declaration.take place) : (!token.Is ";") = true := by
    rw [hbefore token htoken]
    rfl
  have hback := length_takeWhile_reverse (p := fun token : LosslessToken => !token.Is ";") hmodifiers hends htaken
  have hnone : (declaration.take place).takeWhile isHeaderWord = [] := by
    rcases hhead with hzero | hhead
    · rw [hzero]
      rfl
    · cases declaration with
      | nil => simp
      | cons token declaration =>
        cases place with
        | zero => rfl
        | succ place => rw [List.take_succ_cons, List.takeWhile_cons_of_neg (by simpa using hhead)]
  have htail : (index.significant.take (index.significantIndex unit.start + placed.header.length + place)).drop
      (index.significantIndex unit.start + 1) =
      placed.modifiers ++ placed.before.flatten ++ declaration.take place := by
    rw [← List.drop_drop, hdrop]
    rfl
  unfold declarationStart
  dsimp only
  rw [htail, hback, hlength]
  change _ + (List.takeWhile isHeaderWord _).length = _
  split
  · rename_i hnil
    have hheader : placed.header.length = placed.modifiers.length + 1 := by simp [PlacedIn.header, hnil]
    have hstart : index.significantIndex unit.start + placed.header.length + place -
        (place + placed.modifiers.length) = index.significantIndex unit.start + 1 := by omega
    rw [hstart, htail, hnil, List.append_nil, List.takeWhile_append_of_pos
      (fun token htoken => isHeaderWord_of_modifier (placed.isModifier token htoken)), hnone, List.append_nil]
    omega
  · have hstart : index.significantIndex unit.start + placed.header.length + place - (place + 0) =
        index.significantIndex unit.start + placed.header.length := by omega
    rw [hstart, ← List.drop_drop, hdrop, List.drop_left, hnone]
    rfl

theorem PlacedIn.stop_eq (hbefore : ∀ token ∈ declaration.take place, token.Is ";" = false) :
    declarationStop index.significant (index.significantIndex unit.stop)
        (index.significantIndex unit.start + placed.header.length + place) =
      index.significantIndex unit.start + placed.header.length +
        (declaration.takeWhile fun token => !token.Is ";").length := by
  obtain ⟨tokens, after, htaken⟩ := placed.taken
  obtain ⟨inner, semicolon, hinner, hsemicolon⟩ := (takeDeclaration_spec htaken).2
  have hrest : (index.significant.take (index.significantIndex unit.stop)).drop
      (index.significantIndex unit.start + placed.header.length + place) = declaration.drop place ++ placed.rest := by
    rw [Nat.add_assoc, ← List.drop_drop, placed.tokens_eq, List.drop_length_add_append,
      List.drop_append_of_le_length (Nat.le_of_lt placed.lt)]
  have hmem : ∃ token ∈ declaration.drop place, (!token.Is ";") = false := by
    refine ⟨semicolon, ?_, by rw [hsemicolon]; rfl⟩
    have hle : place ≤ inner.length := by
      have := placed.lt
      rw [hinner, List.length_append, List.length_singleton] at this
      omega
    rw [hinner, List.drop_append_of_le_length hle]
    exact List.mem_append_right _ (by simp)
  have hwhole : declaration.takeWhile (fun token => !token.Is ";") =
      declaration.take place ++ (declaration.drop place).takeWhile fun token => !token.Is ";" := by
    conv_lhs => rw [← List.take_append_drop place declaration]
    exact List.takeWhile_append_of_pos fun token htoken => by rw [hbefore token htoken]; rfl
  unfold declarationStop
  rw [hrest, takeWhile_append_of_exists hmem, hwhole, List.length_append, List.length_take,
    Nat.min_eq_left (Nat.le_of_lt placed.lt), Nat.add_assoc _ place]

end Found

/-- **The span found for an offset in a declaration is that of the declaration.** -/
theorem declarationSpan_eq_extent {index : SourceIndex} {unit : Unit} {offset : ℕ} {span : ℕ × ℕ}
    (hspan : declarationSpan index unit offset = some span) (hin : InDeclaration index unit offset) :
    ∃ declaration place, declarationAt index unit offset = some (declaration, place) ∧
      declaration ∈ listDeclarations (unitTokens index unit) ∧ span = extent declaration := by
  obtain ⟨⟨declaration, place⟩, hat, hplain⟩ := (Option.any_eq_true _ _).1 hin
  obtain ⟨placed⟩ := declarationAt_spec hat
  refine ⟨declaration, place, hat, placed.mem, ?_⟩
  simp only [Bool.and_eq_true, Bool.not_eq_true', List.any_eq_false, Bool.not_eq_true, Bool.or_eq_true,
    decide_eq_true_eq] at hplain
  obtain ⟨hbefore, hhead⟩ := hplain
  have hk := placed.k_eq
  have hpos : 0 < placed.header.length := by simp [PlacedIn.header]
  have hstart := placed.start_eq hbefore hhead (by omega)
  have hstop := placed.stop_eq hbefore
  unfold declarationSpan at hspan
  split at hspan
  · cases hspan
  dsimp only at hspan
  rw [hk, hstart, hstop] at hspan
  split at hspan
  · cases hspan
  rename_i hfound
  simp only [Bool.or_eq_true, decide_eq_true_eq, not_or, Nat.not_le, Bool.not_eq_true, List.any_eq_false] at hfound
  obtain ⟨hlt, hnone⟩ := hfound
  -- without an inline structure, the first semicolon is that of the declaration
  obtain ⟨tokens, after, htaken⟩ := placed.taken
  have hwhole : (declaration ++ placed.rest).take (declaration.takeWhile fun token => !token.Is ";").length =
      declaration.takeWhile fun token => !token.Is ";" := by
    rw [List.take_append_of_le_length (List.takeWhile_prefix _).length_le]
    exact (List.prefix_iff_eq_take.1 (List.takeWhile_prefix _)).symm
  have hflat : ∀ token ∈ declaration.takeWhile fun token => !token.Is ";", token.upper ≠ "STRUCT".toList := by
    intro token htoken hstruct
    have hdrop := placed.take_drop (n := (declaration.takeWhile fun token => !token.Is ";").length) (by omega)
    have hmem := hnone token (by
      rw [← List.drop_drop, hdrop, hwhole, List.drop_left]
      exact htoken)
    rw [hstruct] at hmem
    revert hmem
    decide +kernel
  have hlength := length_takeWhile_declaration htaken hflat
  have hfirst := placed.getElem? (n := 0) (by omega) (by omega)
  have hlast := placed.getElem? (n := (declaration.takeWhile fun token => !token.Is ";").length) (by omega) hlt
  rw [Nat.add_zero] at hfirst
  have hindex : (declaration.takeWhile fun token => !token.Is ";").length = declaration.length - 1 := by omega
  rw [hfirst, hlast, hindex, ← List.getLast?_eq_getElem?, ← List.head?_eq_getElem?] at hspan
  cases hhead? : declaration.head? with
  | none =>
    rw [hhead?] at hspan
    cases hspan
  | some first =>
    cases hlast? : declaration.getLast? with
    | none =>
      rw [hhead?, hlast?] at hspan
      cases hspan
    | some last =>
      rw [hhead?, hlast?] at hspan
      cases hspan
      rw [extent, hhead?, hlast?]
      rfl

end SemantiST.Intake.Build
