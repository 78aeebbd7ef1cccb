import SemantiST.Intake.Lossless

/-!
# Places of tokens and units

The tokens of a text stand one after the other, and so do its units: no two of them share a character.
-/

namespace SemantiST.Intake

open Lib

/-! ## Tokens -/

/-- Tokens that stand one after the other. -/
structure Placed (tokens : List LosslessToken) : Prop where
  ordered : tokens.Pairwise fun a b => a.stop ≤ b.start
  le : ∀ token ∈ tokens, token.start ≤ token.stop
  word : ∀ token ∈ tokens, token.isWord = true → token.start < token.stop

theorem Placed.sublist {tokens tokens' : List LosslessToken} (h : Placed tokens) (hsub : tokens'.Sublist tokens) :
    Placed tokens' where
  ordered := h.ordered.sublist hsub
  le token hmem := h.le token (hsub.subset hmem)
  word token hmem := h.word token (hsub.subset hmem)

theorem placed_tokensFrom (u : UnicodeData) (fuel i line lineStart : ℕ) (s : Text) :
    Placed (tokensFrom u fuel i line lineStart s) ∧ ∀ token ∈ tokensFrom u fuel i line lineStart s, i ≤ token.start := by
  induction fuel generalizing i line lineStart s with
  | zero => exact ⟨⟨.nil, by simp [tokensFrom], by simp [tokensFrom]⟩, by simp [tokensFrom]⟩
  | succ fuel ih =>
    cases s with
    | nil => exact ⟨⟨.nil, by simp [tokensFrom], by simp [tokensFrom]⟩, by simp [tokensFrom]⟩
    | cons c rest =>
      simp only [tokensFrom]
      obtain ⟨hplaced, hfrom⟩ := ih (i + (scan u (c :: rest)).2)
        (line + ((c :: rest).take (scan u (c :: rest)).2).count '\n')
        (if ((c :: rest).take (scan u (c :: rest)).2).count '\n' = 0 then lineStart
          else i + (scan u (c :: rest)).2 -
            (((c :: rest).take (scan u (c :: rest)).2).reverse.takeWhile (· ≠ '\n')).length)
        ((c :: rest).drop (scan u (c :: rest)).2)
      refine ⟨⟨List.pairwise_cons.2 ⟨fun token hmem => hfrom token hmem, hplaced.ordered⟩, ?_, ?_⟩, ?_⟩
      · intro token hmem
        rcases List.mem_cons.1 hmem with rfl | hmem
        · exact Nat.le_add_right _ _
        · exact hplaced.le token hmem
      · intro token hmem hword
        rcases List.mem_cons.1 hmem with rfl | hmem
        · exact Nat.lt_add_of_pos_right (reads_scan u c rest).1
        · exact hplaced.word token hmem hword
      · intro token hmem
        rcases List.mem_cons.1 hmem with rfl | hmem
        · exact Nat.le_refl _
        · exact Nat.le_trans (Nat.le_add_right _ _) (hfrom token hmem)

theorem placed_significant (u : UnicodeData) (text : Text) : Placed (SourceIndex.ofText u text).significant :=
  (placed_tokensFrom u _ _ _ _ _).1.sublist List.filter_sublist

/-! ## Units -/

theorem memberEnd_suffix (memberWord endWord : Text) (start : LosslessToken) (rest : List LosslessToken) :
    (memberEnd memberWord endWord start rest).2 <:+ rest := by
  have hdrop := rest.drop_suffix
    (rest.takeWhile fun token => token.keyword ≠ memberWord ∧ token.keyword ≠ endWord).length
  unfold memberEnd
  dsimp only
  split
  · rename_i token after hafter
    rw [hafter] at hdrop
    split
    · exact (List.suffix_cons token after).trans hdrop
    · exact hdrop
  · exact List.nil_suffix

theorem unitBody_suffix (word endWord : Text) (fuel depth : ℕ) (tokens : List LosslessToken) :
    (unitBody word endWord fuel depth tokens).2 <:+ tokens := by
  induction fuel generalizing depth tokens with
  | zero => exact List.nil_suffix
  | succ fuel ih =>
    cases tokens with
    | nil => exact List.nil_suffix
    | cons token rest =>
      have hrest (depth : ℕ) : (unitBody word endWord fuel depth rest).2 <:+ token :: rest :=
        (ih depth rest).trans (List.suffix_cons token rest)
      unfold unitBody
      dsimp only
      split
      · split
        · exact List.suffix_refl _
        · exact hrest _
      · split
        · exact hrest _
        · split
          · exact ((ih depth _).trans (memberEnd_suffix _ _ _ _)).trans (List.suffix_cons token rest)
          · exact hrest _

theorem dottedWords_suffix (tokens : List LosslessToken) : (dottedWords tokens).2 <:+ tokens := by
  fun_induction dottedWords tokens with
  | case1 token dot rest hword hdot parts tail hparts ih =>
    rw [hparts] at ih
    exact (ih.trans (List.suffix_cons dot rest)).trans (List.suffix_cons token _)
  | case2 token dot rest hword hdot => exact List.suffix_cons token _
  | case3 => exact List.suffix_refl _
  | case4 token => exact List.nil_suffix
  | case5 => exact List.suffix_refl _
  | case6 => exact List.suffix_refl _

/-- A token that starts a unit of a kind. -/
def LosslessToken.Opens (token : LosslessToken) (unit : Unit) : Prop :=
  token.start = unit.start ∧ token.keyword = unit.kind ∧ (lookupWord unitEnds token.keyword).isSome = true

theorem isWord_of_keyword_ne {token : LosslessToken} (hnil : token.keyword ≠ []) (hsymbol : token.keyword ≠ [';']) :
    token.isWord = true ∧ token.Is ";" = false := by
  unfold LosslessToken.keyword at hnil hsymbol
  split at hnil
  · rename_i hword
    refine ⟨hword, Bool.eq_false_iff.2 fun h => ?_⟩
    rw [if_pos hword, of_decide_eq_true h] at hsymbol
    exact hsymbol (by decide +kernel)
  · exact absurd rfl hnil

theorem isWord_of_keyword {token : LosslessToken} (h : (lookupWord unitEnds token.keyword).isSome = true) :
    token.isWord = true ∧ token.Is ";" = false := by
  apply isWord_of_keyword_ne <;> (intro hkeyword; rw [hkeyword] at h; revert h; decide +kernel)

/-- Units that stand one after the other, each from a token of a list on. -/
structure UnitsIn (tokens : List LosslessToken) (units : List Unit) : Prop where
  ordered : units.Pairwise fun a b => a.stop ≤ b.start
  lt : ∀ unit ∈ units, unit.start < unit.stop
  opened : ∀ unit ∈ units, ∃ token ∈ tokens, token.Opens unit

theorem UnitsIn.mono {tokens tokens' : List LosslessToken} {units : List Unit} (h : UnitsIn tokens units)
    (hsub : tokens ⊆ tokens') : UnitsIn tokens' units where
  ordered := h.ordered
  lt := h.lt
  opened unit hunit := (h.opened unit hunit).imp fun _ htoken => htoken.imp_left (hsub ·)

theorem spanEnd_le {keyword token : LosslessToken} {after : List LosslessToken}
    (hplaced : Placed (keyword :: after)) (hmem : token ∈ after) (hnot : token.Is ";" = false) :
    spanEnd keyword after ≤ token.start := by
  cases after with
  | nil => cases hmem
  | cons next after =>
    unfold spanEnd
    dsimp only
    split
    · rename_i hsemicolon
      rcases List.mem_cons.1 hmem with rfl | hmem
      · rw [hsemicolon] at hnot
        cases hnot
      · exact (List.pairwise_cons.1 (List.pairwise_cons.1 hplaced.ordered).2).1 token hmem
    · exact (List.pairwise_cons.1 hplaced.ordered).1 token hmem

theorem le_spanEnd {keyword : LosslessToken} {after : List LosslessToken} (hplaced : Placed (keyword :: after)) :
    keyword.stop ≤ spanEnd keyword after := by
  cases after with
  | nil => exact Nat.le_refl _
  | cons next after =>
    unfold spanEnd
    dsimp only
    split
    · exact Nat.le_trans ((List.pairwise_cons.1 hplaced.ordered).1 next List.mem_cons_self)
        (hplaced.le next (by simp))
    · exact Nat.le_refl _

theorem UnitsIn.cons {token : LosslessToken} {rest after : List LosslessToken} {unit : Unit} {units : List Unit}
    (hopens : token.Opens unit) (hlt : unit.start < unit.stop) (h : UnitsIn after units) (hsub : after ⊆ rest)
    (hle : ∀ next ∈ after, (lookupWord unitEnds next.keyword).isSome = true → unit.stop ≤ next.start) :
    UnitsIn (token :: rest) (unit :: units) where
  ordered := by
    refine List.pairwise_cons.2 ⟨fun other hother => ?_, h.ordered⟩
    obtain ⟨next, hmem, hstart, -, hnext⟩ := h.opened other hother
    exact hstart ▸ hle next hmem hnext
  lt other hother := by
    rcases List.mem_cons.1 hother with rfl | hother
    · exact hlt
    · exact h.lt other hother
  opened other hother := by
    rcases List.mem_cons.1 hother with rfl | hother
    · exact ⟨token, List.mem_cons_self, hopens⟩
    · exact (h.opened other hother).imp fun _ hmem => hmem.imp_left fun hmem => List.mem_cons_of_mem _ (hsub hmem)

/-- **The units of a list of tokens stand one after the other.** -/
theorem unitsIn_unitsFrom (markers : List (ℕ × Text)) (last : ℕ × ℕ) (fuel : ℕ) (namespaces : List Text)
    {tokens : List LosslessToken} (hplaced : Placed tokens) (hlast : ∀ token ∈ tokens, token.stop ≤ last.1) :
    UnitsIn tokens (unitsFrom markers last fuel namespaces tokens) := by
  induction fuel generalizing namespaces tokens with
  | zero => exact ⟨.nil, by simp [unitsFrom], by simp [unitsFrom]⟩
  | succ fuel ih =>
    cases tokens with
    | nil => exact ⟨.nil, by simp [unitsFrom], by simp [unitsFrom]⟩
    | cons token rest =>
      have hsuffix (namespaces : List Text) {after : List LosslessToken} (h : after <:+ rest) :
          UnitsIn after (unitsFrom markers last fuel namespaces after) :=
        ih namespaces (hplaced.sublist (h.sublist.trans (List.sublist_cons_self _ _)))
          fun token hmem => hlast token (List.mem_cons_of_mem _ (h.subset hmem))
      have hsub {after : List LosslessToken} (h : after <:+ rest) : after ⊆ token :: rest :=
        fun _ hmem => List.mem_cons_of_mem _ (h.subset hmem)
      unfold unitsFrom
      dsimp only
      split
      · exact (hsuffix _ (dottedWords_suffix rest)).mono (hsub (dottedWords_suffix rest))
      split
      · exact (hsuffix _ (List.suffix_refl rest)).mono (List.subset_cons_self _ _)
      split
      · exact (hsuffix _ (List.suffix_refl rest)).mono (List.subset_cons_self _ _)
      rename_i endWord hend
      have hopens : (lookupWord unitEnds token.keyword).isSome = true := by rw [hend]; rfl
      have hpos := hplaced.word token List.mem_cons_self (isWord_of_keyword hopens).1
      have hbody := unitBody_suffix token.keyword endWord rest.length 0 rest
      generalize (unitBody token.keyword endWord rest.length 0 rest).2 = tokens at hbody ⊢
      cases tokens with
      | nil =>
        have hnil : unitsFrom markers last fuel namespaces [] = [] := by cases fuel <;> rfl
        have hle := hlast token List.mem_cons_self
        have hafter : UnitsIn [] (unitsFrom markers last fuel namespaces []) :=
          hnil ▸ ⟨.nil, by simp, by simp⟩
        exact UnitsIn.cons ⟨rfl, rfl, hopens⟩ (Nat.lt_of_lt_of_le hpos hle) hafter (List.nil_subset _) (by simp)
      | cons keyword after =>
        have hkeyword : keyword ∈ rest := hbody.subset List.mem_cons_self
        have hafter : after <:+ rest := (List.suffix_cons keyword after).trans hbody
        have hplaced' := hplaced.sublist (hbody.sublist.trans (List.sublist_cons_self token rest))
        have hstop : token.start < spanEnd keyword after :=
          calc token.start < token.stop := hpos
            _ ≤ keyword.start := (List.pairwise_cons.1 hplaced.ordered).1 keyword hkeyword
            _ ≤ keyword.stop := hplaced.le keyword (List.mem_cons_of_mem _ hkeyword)
            _ ≤ spanEnd keyword after := le_spanEnd hplaced'
        exact UnitsIn.cons ⟨rfl, rfl, hopens⟩ hstop (hsuffix namespaces hafter) hafter.subset
          fun next hmem hnext => spanEnd_le hplaced' hmem (isWord_of_keyword hnext).2

theorem Placed.stop_le_getLast {tokens : List LosslessToken} (h : Placed tokens) {token last : LosslessToken}
    (hmem : token ∈ tokens) (hlast : tokens.getLast? = some last) : token.stop ≤ last.stop := by
  obtain ⟨before, rfl⟩ := List.getLast?_eq_some_iff.1 hlast
  rcases List.mem_append.1 hmem with hmem | hmem
  · have hle := (List.pairwise_append.1 h.ordered).2.2 token hmem last (by simp)
    exact Nat.le_trans hle (h.le last (by simp))
  · rw [List.mem_singleton] at hmem
    exact hmem ▸ Nat.le_refl _

/-- **The units of a text stand one after the other.** -/
theorem unitsIn_ofText (u : UnicodeData) (text : Text) :
    UnitsIn (SourceIndex.ofText u text).significant (SourceIndex.ofText u text).units := by
  have hplaced := placed_significant u text
  refine unitsIn_unitsFrom _ _ _ _ hplaced fun token hmem => ?_
  cases hlast : (SourceIndex.ofText u text).significant.getLast? with
  | none =>
    rw [List.getLast?_eq_none_iff.1 hlast] at hmem
    cases hmem
  | some last =>
    have hle := hplaced.stop_le_getLast hmem hlast
    change token.stop ≤ (((SourceIndex.ofText u text).significant.getLast?.map _).getD (0, 0)).1
    rw [hlast]
    exact hle

/-- Of two members of an ordered list, one comes before the other. -/
theorem pairwise_cases {α : Type} {R : α → α → Prop} {l : List α} (h : l.Pairwise R) {a b : α} (ha : a ∈ l)
    (hb : b ∈ l) : a = b ∨ R a b ∨ R b a := by
  induction l with
  | nil => cases ha
  | cons c l ih =>
    obtain ⟨hc, hl⟩ := List.pairwise_cons.1 h
    rcases List.mem_cons.1 ha with hfirst | hrest
    · rcases List.mem_cons.1 hb with hfirst' | hrest'
      · exact .inl (hfirst.trans hfirst'.symm)
      · exact .inr (.inl (hfirst ▸ hc b hrest'))
    · rcases List.mem_cons.1 hb with hfirst' | hrest'
      · exact .inr (.inr (hfirst' ▸ hc a hrest))
      · exact ih hl hrest hrest'

/-! ## Tokens of a unit -/

section Index

theorem drop_length_takeWhile {α : Type} (p : α → Bool) (l : List α) :
    l.drop (l.takeWhile p).length = l.dropWhile p := by
  induction l with
  | nil => rfl
  | cons a l ih =>
    by_cases ha : p a = true
    · rw [List.takeWhile_cons_of_pos ha, List.dropWhile_cons_of_pos ha, List.length_cons, List.drop_succ_cons, ih]
    · rw [List.takeWhile_cons_of_neg ha, List.dropWhile_cons_of_neg ha]
      rfl

variable {index : SourceIndex}

theorem stop_le_of_mem_take {offset : ℕ} {token : LosslessToken}
    (h : token ∈ index.significant.take (index.significantIndex offset)) : token.stop ≤ offset := by
  rw [SourceIndex.significantIndex, ← List.prefix_iff_eq_take.1 (List.takeWhile_prefix _)] at h
  simpa using List.mem_takeWhile_imp h

theorem lt_stop_of_mem_drop (hplaced : Placed index.significant) {offset : ℕ} {token : LosslessToken}
    (h : token ∈ index.significant.drop (index.significantIndex offset)) : offset < token.stop := by
  rw [SourceIndex.significantIndex, drop_length_takeWhile] at h
  have hplaced := hplaced.sublist (List.dropWhile_suffix (fun token => token.stop ≤ offset)).sublist
  cases hdrop : index.significant.dropWhile fun token => token.stop ≤ offset with
  | nil =>
    rw [hdrop] at h
    cases h
  | cons first rest =>
    have hfirst : offset < first.stop := by
      have hnot := List.head?_dropWhile_not (fun token => decide (token.stop ≤ offset)) index.significant
      rw [hdrop] at hnot
      simpa using hnot
    rw [hdrop] at h hplaced
    rcases List.mem_cons.1 h with rfl | hrest
    · exact hfirst
    · have hle := (List.pairwise_cons.1 hplaced.ordered).1 token hrest
      have := hplaced.le token h
      omega

/-- The tokens from the start of a unit on that end before its end lie in the unit. -/
theorem mem_unit_of_mem_take {unit : Unit} {token : LosslessToken} (hplaced : Placed index.significant)
    (hunits : UnitsIn index.significant index.units) (hunit : unit ∈ index.units)
    (h : token ∈ (index.significant.take (index.significantIndex unit.stop)).drop
      (index.significantIndex unit.start)) : unit.start ≤ token.start ∧ token.stop ≤ unit.stop := by
  obtain ⟨opening, hopening, hstart, -, -⟩ := hunits.opened unit hunit
  have hmem : token ∈ index.significant.drop (index.significantIndex unit.start) := by
    rw [List.drop_take] at h
    exact List.mem_of_mem_take h
  have hlt := lt_stop_of_mem_drop hplaced hmem
  refine ⟨?_, stop_le_of_mem_take (List.mem_of_mem_drop h)⟩
  have hle := hplaced.le opening hopening
  rcases pairwise_cases hplaced.ordered hopening (List.mem_of_mem_drop hmem) with rfl | hbefore | hafter
  · exact Nat.le_of_eq hstart.symm
  · omega
  · omega

end Index

end SemantiST.Intake
