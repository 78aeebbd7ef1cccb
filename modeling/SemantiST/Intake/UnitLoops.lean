import SemantiST.Intake.Units

/-!
# The loops of `split_units`

The loop over the tokens of a text and the loop over those of a unit end on every list of tokens.  A member lies
in its unit, and two members of a unit share no character (`split_lossless`).
-/

namespace SemantiST.Intake

open Lib

/-! ## The members of a unit -/

/-- The variables of the loop over the tokens of a unit. -/
structure BodyScan where
  depth : ℕ
  tokens : List LosslessToken
  members : List Member

/-- The member that starts at a token. -/
def readMember (endWord : Text) (token : LosslessToken) (rest : List LosslessToken) : Member × List LosslessToken :=
  let (stop, after) := memberEnd ((lookupWord unitEnds token.keyword).getD []) endWord token rest
  ({ kind := token.keyword, name := declaredName token rest, start := token.start, stop := stop, line := token.line },
    after)

/-- A round of the loop over the tokens of a unit. -/
def bodyStep (word endWord : Text) (s : BodyScan) : Option BodyScan :=
  match s.tokens with
  | [] => none
  | token :: rest =>
    let other := token.keyword
    if other = endWord then
      if s.depth = 0 then none else some { s with depth := s.depth - 1, tokens := rest }
    else if other = word ∧ ¬Among word ["VAR_GLOBAL", "TYPE"] then some { s with depth := s.depth + 1, tokens := rest }
    else if Among word containerKinds ∧ Among other memberKinds then
      let (member, after) := readMember endWord token rest
      some { s with tokens := after, members := s.members ++ [member] }
    else some { s with tokens := rest }

theorem readMember_suffix (endWord : Text) (token : LosslessToken) (rest : List LosslessToken) :
    (readMember endWord token rest).2 <:+ rest := memberEnd_suffix _ _ _ _

/-- The loop over the tokens of a unit ends, with what `unitBody` gives. -/
theorem body_ends (word endWord : Text) (fuel : ℕ) (s : BodyScan) (hfuel : s.tokens.length ≤ fuel) :
    ∃ t, Loop (bodyStep word endWord) s t ∧
      t.members = s.members ++ (unitBody word endWord fuel s.depth s.tokens).1 ∧
      t.tokens = (unitBody word endWord fuel s.depth s.tokens).2 := by
  induction fuel generalizing s with
  | zero =>
    have hnil := List.length_eq_zero_iff.1 (Nat.le_zero.1 hfuel)
    refine ⟨s, .exit (by rw [bodyStep, hnil]), ?_, ?_⟩
    · exact (List.append_nil _).symm
    · exact hnil
  | succ fuel ih =>
    obtain ⟨depth, tokens, members⟩ := s
    cases tokens with
    | nil => exact ⟨_, .exit rfl, (List.append_nil _).symm, rfl⟩
    | cons token rest =>
      have hrest : rest.length ≤ fuel := Nat.le_of_succ_le_succ hfuel
      unfold unitBody
      dsimp only
      by_cases hend : token.keyword = endWord
      · rw [if_pos hend]
        by_cases hdepth : depth = 0
        · rw [if_pos hdepth]
          refine ⟨_, .exit ?_, (List.append_nil _).symm, rfl⟩
          simp only [bodyStep, if_pos hend, if_pos hdepth]
        · rw [if_neg hdepth]
          obtain ⟨t, hloop, ht⟩ := ih ⟨depth - 1, rest, members⟩ hrest
          refine ⟨t, .next ?_ hloop, ht⟩
          simp only [bodyStep, if_pos hend, if_neg hdepth]
      · rw [if_neg hend]
        by_cases hsame : token.keyword = word ∧ ¬Among word ["VAR_GLOBAL", "TYPE"]
        · rw [if_pos hsame]
          obtain ⟨t, hloop, ht⟩ := ih ⟨depth + 1, rest, members⟩ hrest
          refine ⟨t, .next ?_ hloop, ht⟩
          simp only [bodyStep, if_neg hend, if_pos hsame]
        · rw [if_neg hsame]
          by_cases hmember : Among word containerKinds ∧ Among token.keyword memberKinds
          · rw [if_pos hmember]
            obtain ⟨t, hloop, hmembers, htokens⟩ := ih
              ⟨depth, (readMember endWord token rest).2, members ++ [(readMember endWord token rest).1]⟩
              (Nat.le_trans (readMember_suffix endWord token rest).length_le hrest)
            refine ⟨t, .next ?_ hloop, ?_, htokens⟩
            · simp only [bodyStep, if_neg hend, if_neg hsame, if_pos hmember]
            · rw [hmembers, List.append_assoc]
              rfl
          · rw [if_neg hmember]
            obtain ⟨t, hloop, ht⟩ := ih ⟨depth, rest, members⟩ hrest
            refine ⟨t, .next ?_ hloop, ht⟩
            simp only [bodyStep, if_neg hend, if_neg hsame, if_neg hmember]

/-! ## The units of a text -/

/-- The variables of the loop of `split_units`. -/
structure Splitting where
  namespaces : List Text
  tokens : List LosslessToken
  units : List Unit

section Units

variable (markers : List (ℕ × Text)) (last : ℕ × ℕ)

/-- The unit that starts at a token. -/
def readUnit (namespaces : List Text) (endWord : Text) (token : LosslessToken) (rest : List LosslessToken) :
    Unit × List LosslessToken :=
  let (members, tokens) := unitBody token.keyword endWord rest.length 0 rest
  let (stop, endLine, closed, after) :=
    match tokens with
    | keyword :: after => (spanEnd keyword after, keyword.line, true, after)
    | [] => (last.1, last.2, false, [])
  ({ kind := token.keyword
     name := if token.keyword = "VAR_GLOBAL".toList then [] else declaredName token rest
     start := token.start
     stop := stop
     line := token.line
     endLine := endLine
     namespaceName := joinDots namespaces
     marker := ((markers.filter fun marker => marker.1 < token.start).getLast?).map Prod.snd
     closed := closed
     members := members }, after)

/-- A round of the loop of `split_units`. -/
def splitStep (s : Splitting) : Option Splitting :=
  match s.tokens with
  | [] => none
  | token :: rest =>
    let word := token.keyword
    if word = "NAMESPACE".toList then
      let (parts, after) := dottedWords rest
      some { s with namespaces := s.namespaces ++ [joinDots parts], tokens := after }
    else if word = "END_NAMESPACE".toList ∧ s.namespaces ≠ [] then
      some { s with namespaces := s.namespaces.dropLast, tokens := rest }
    else
      match lookupWord unitEnds word with
      | none => some { s with tokens := rest }
      | some endWord =>
        let (unit, after) := readUnit markers last s.namespaces endWord token rest
        some { s with tokens := after, units := s.units ++ [unit] }

theorem readUnit_suffix (namespaces : List Text) (endWord : Text) (token : LosslessToken)
    (rest : List LosslessToken) : (readUnit markers last namespaces endWord token rest).2 <:+ rest := by
  have hbody := unitBody_suffix token.keyword endWord rest.length 0 rest
  unfold readUnit
  dsimp only
  generalize (unitBody token.keyword endWord rest.length 0 rest).2 = tokens at hbody ⊢
  cases tokens with
  | nil => exact List.nil_suffix
  | cons keyword after => exact (List.suffix_cons keyword after).trans hbody

/-- What `unitsFrom` does with the first token. -/
theorem unitsFrom_cons (fuel : ℕ) (namespaces : List Text) (token : LosslessToken) (rest : List LosslessToken) :
    unitsFrom markers last (fuel + 1) namespaces (token :: rest) =
      if token.keyword = "NAMESPACE".toList then
        unitsFrom markers last fuel (namespaces ++ [joinDots (dottedWords rest).1]) (dottedWords rest).2
      else if token.keyword = "END_NAMESPACE".toList ∧ namespaces ≠ [] then
        unitsFrom markers last fuel namespaces.dropLast rest
      else
        match lookupWord unitEnds token.keyword with
        | none => unitsFrom markers last fuel namespaces rest
        | some endWord =>
          (readUnit markers last namespaces endWord token rest).1 ::
            unitsFrom markers last fuel namespaces (readUnit markers last namespaces endWord token rest).2 := rfl

/-- The loop of `split_units` ends, with the units of the tokens. -/
theorem split_ends (fuel : ℕ) (s : Splitting) (hfuel : s.tokens.length ≤ fuel) :
    ∃ t, Loop (splitStep markers last) s t ∧
      t.units = s.units ++ unitsFrom markers last fuel s.namespaces s.tokens := by
  induction fuel generalizing s with
  | zero =>
    have hnil := List.length_eq_zero_iff.1 (Nat.le_zero.1 hfuel)
    exact ⟨s, .exit (by rw [splitStep, hnil]), (List.append_nil _).symm⟩
  | succ fuel ih =>
    obtain ⟨namespaces, tokens, units⟩ := s
    cases tokens with
    | nil => exact ⟨_, .exit rfl, (List.append_nil _).symm⟩
    | cons token rest =>
      have hrest : rest.length ≤ fuel := Nat.le_of_succ_le_succ hfuel
      rw [unitsFrom_cons]
      by_cases hopen : token.keyword = "NAMESPACE".toList
      · rw [if_pos hopen]
        obtain ⟨t, hloop, ht⟩ := ih ⟨namespaces ++ [joinDots (dottedWords rest).1], (dottedWords rest).2, units⟩
          (Nat.le_trans (dottedWords_suffix rest).length_le hrest)
        refine ⟨t, .next ?_ hloop, ht⟩
        simp only [splitStep, if_pos hopen]
      rw [if_neg hopen]
      by_cases hclose : token.keyword = "END_NAMESPACE".toList ∧ namespaces ≠ []
      · rw [if_pos hclose]
        obtain ⟨t, hloop, ht⟩ := ih ⟨namespaces.dropLast, rest, units⟩ hrest
        refine ⟨t, .next ?_ hloop, ht⟩
        simp only [splitStep, if_neg hopen, if_pos hclose]
      rw [if_neg hclose]
      cases hend : lookupWord unitEnds token.keyword with
      | none =>
        obtain ⟨t, hloop, ht⟩ := ih ⟨namespaces, rest, units⟩ hrest
        refine ⟨t, .next ?_ hloop, ht⟩
        simp only [splitStep, if_neg hopen, if_neg hclose, hend]
      | some endWord =>
        obtain ⟨t, hloop, ht⟩ := ih ⟨namespaces, (readUnit markers last namespaces endWord token rest).2,
          units ++ [(readUnit markers last namespaces endWord token rest).1]⟩
          (Nat.le_trans (readUnit_suffix markers last namespaces endWord token rest).length_le hrest)
        refine ⟨t, .next ?_ hloop, ?_⟩
        · simp only [splitStep, if_neg hopen, if_neg hclose, hend]
        · rw [ht, List.append_assoc]
          rfl

/-- What holds of every unit that starts at a token of a list holds of the units of the list. -/
theorem forall_unitsFrom {P : Unit → Prop} {all : List LosslessToken}
    (hread : ∀ namespaces endWord token rest, token :: rest <:+ all → lookupWord unitEnds token.keyword = some endWord →
      P (readUnit markers last namespaces endWord token rest).1)
    (fuel : ℕ) (namespaces : List Text) {tokens : List LosslessToken} (hsuffix : tokens <:+ all) :
    ∀ unit ∈ unitsFrom markers last fuel namespaces tokens, P unit := by
  induction fuel generalizing namespaces tokens with
  | zero => exact fun unit hmem => by cases hmem
  | succ fuel ih =>
    cases tokens with
    | nil => exact fun unit hmem => by cases hmem
    | cons token rest =>
      have hrest : rest <:+ all := (List.suffix_cons token rest).trans hsuffix
      rw [unitsFrom_cons]
      split
      · exact ih _ ((dottedWords_suffix rest).trans hrest)
      split
      · exact ih _ hrest
      split
      · exact ih _ hrest
      · rename_i endWord hend
        intro unit hmem
        rcases List.mem_cons.1 hmem with rfl | hmem
        · exact hread namespaces endWord token rest hsuffix hend
        · exact ih namespaces ((readUnit_suffix markers last namespaces endWord token rest).trans hrest) unit hmem

end Units

/-! ## Spans of members -/

theorem spanEnd_mem (keyword : LosslessToken) (after : List LosslessToken) :
    ∃ token ∈ keyword :: after, spanEnd keyword after = token.stop := by
  cases after with
  | nil => exact ⟨keyword, List.mem_cons_self, rfl⟩
  | cons next after =>
    unfold spanEnd
    dsimp only
    split
    · exact ⟨next, by simp, rfl⟩
    · exact ⟨keyword, by simp, rfl⟩

/-- Where the last of some tokens ends. -/
theorem lastStop_spec {start : LosslessToken} {inside after : List LosslessToken}
    (hplaced : Placed (start :: inside ++ after)) :
    start.stop ≤ lastStop start inside ∧ (∃ token ∈ start :: inside, lastStop start inside = token.stop) ∧
      ∀ token ∈ after, lastStop start inside ≤ token.start := by
  have hbefore := (List.pairwise_append.1 hplaced.ordered).2.2
  unfold lastStop
  cases hlast : inside.getLast? with
  | none => exact ⟨Nat.le_refl _, ⟨start, List.mem_cons_self, rfl⟩, hbefore start List.mem_cons_self⟩
  | some last =>
    have hmem : last ∈ inside := List.mem_of_getLast? hlast
    have hle := (List.pairwise_cons.1 hplaced.ordered).1 last (List.mem_append_left _ hmem)
    have hspan := hplaced.le last (by simp [hmem])
    refine ⟨Nat.le_trans hle hspan, ⟨last, List.mem_cons_of_mem _ hmem, rfl⟩, ?_⟩
    exact hbefore last (List.mem_cons_of_mem _ hmem)

/-- A member ends where one of the tokens ends, before the words after it. -/
theorem memberEnd_spec (memberWord endWord : Text) {start : LosslessToken} {rest : List LosslessToken}
    (hplaced : Placed (start :: rest)) :
    start.stop ≤ (memberEnd memberWord endWord start rest).1 ∧
      (∃ token ∈ start :: rest, (memberEnd memberWord endWord start rest).1 = token.stop) ∧
      ∀ token ∈ (memberEnd memberWord endWord start rest).2, token.Is ";" = false →
        (memberEnd memberWord endWord start rest).1 ≤ token.start := by
  unfold memberEnd
  dsimp only
  have hparts := @List.takeWhile_append_dropWhile _
    (fun token : LosslessToken => decide (token.keyword ≠ memberWord ∧ token.keyword ≠ endWord)) rest
  rw [← drop_length_takeWhile] at hparts
  generalize rest.takeWhile (fun token => decide (token.keyword ≠ memberWord ∧ token.keyword ≠ endWord)) = inside
    at hparts ⊢
  generalize rest.drop inside.length = after at hparts ⊢
  subst hparts
  rw [← List.cons_append] at hplaced
  obtain ⟨hstart, ⟨token, hmem, htoken⟩, hafter⟩ := lastStop_spec hplaced
  have hlast : ∃ token ∈ start :: (inside ++ after), lastStop start inside = token.stop :=
    ⟨token, List.mem_append_left after hmem, htoken⟩
  cases after with
  | nil => exact ⟨hstart, hlast, fun token hmem => by cases hmem⟩
  | cons keyword after =>
    dsimp only
    split
    · have hplaced' := hplaced.sublist (List.sublist_append_right (start :: inside) (keyword :: after))
      have hle := (List.pairwise_append.1 hplaced.ordered).2.2 start List.mem_cons_self keyword List.mem_cons_self
      have hspan := hplaced'.le keyword List.mem_cons_self
      refine ⟨Nat.le_trans (Nat.le_trans hle hspan) (le_spanEnd hplaced'), ?_, ?_⟩
      · obtain ⟨token, hmem, htoken⟩ := spanEnd_mem keyword after
        exact ⟨token, List.mem_cons_of_mem _ (List.mem_append_right inside hmem), htoken⟩
      · exact fun token hmem hnot => spanEnd_le hplaced' hmem hnot
    · exact ⟨hstart, hlast, fun token hmem _ => hafter token hmem⟩

/-- Members one after the other, from words of a list of tokens on, before the words after them. -/
structure MembersIn (tokens after : List LosslessToken) (members : List Member) : Prop where
  ordered : members.Pairwise fun a b => a.stop ≤ b.start
  lt : ∀ member ∈ members, member.start < member.stop
  opened : ∀ member ∈ members, ∃ token ∈ tokens, token.start = member.start ∧ token.Is ";" = false
  closed : ∀ member ∈ members, ∃ token ∈ tokens, member.stop = token.stop
  before : ∀ member ∈ members, ∀ token ∈ after, token.Is ";" = false → member.stop ≤ token.start

theorem MembersIn.nil (tokens after : List LosslessToken) : MembersIn tokens after [] :=
  ⟨.nil, by simp, by simp, by simp, by simp⟩

theorem MembersIn.mono {tokens tokens' after : List LosslessToken} {members : List Member}
    (h : MembersIn tokens after members) (hsub : tokens ⊆ tokens') : MembersIn tokens' after members where
  ordered := h.ordered
  lt := h.lt
  opened member hmem := (h.opened member hmem).imp fun _ htoken => htoken.imp_left (hsub ·)
  closed member hmem := (h.closed member hmem).imp fun _ htoken => htoken.imp_left (hsub ·)
  before := h.before

theorem isSome_of_memberKinds {word : Text} (h : Among word memberKinds = true) :
    (lookupWord unitEnds word).isSome = true := by
  obtain ⟨w, hw, heq⟩ := List.any_eq_true.1 h
  rw [decide_eq_true_eq] at heq
  subst heq
  revert w
  decide +kernel

theorem membersIn_readMember {endWord : Text} {token : LosslessToken} {rest after : List LosslessToken}
    {members : List Member} (hplaced : Placed (token :: rest)) (hkind : Among token.keyword memberKinds = true)
    (hafter : after <:+ (readMember endWord token rest).2)
    (h : MembersIn (readMember endWord token rest).2 after members) :
    MembersIn (token :: rest) after ((readMember endWord token rest).1 :: members) := by
  obtain ⟨hstart, hclosed, hbefore⟩ := memberEnd_spec ((lookupWord unitEnds token.keyword).getD []) endWord hplaced
  obtain ⟨hword, hnot⟩ := isWord_of_keyword (isSome_of_memberKinds hkind)
  have hpos := hplaced.word token List.mem_cons_self hword
  have hsub : (readMember endWord token rest).2 ⊆ token :: rest :=
    fun _ hmem => List.mem_cons_of_mem _ ((readMember_suffix endWord token rest).subset hmem)
  have hmono := h.mono hsub
  refine ⟨List.pairwise_cons.2 ⟨fun other hother => ?_, h.ordered⟩, ?_, ?_, ?_, ?_⟩
  · obtain ⟨next, hmem, hnext, hother⟩ := h.opened other hother
    exact hnext ▸ hbefore next hmem hother
  · intro member hmem
    rcases List.mem_cons.1 hmem with rfl | hmem
    · exact Nat.lt_of_lt_of_le hpos hstart
    · exact h.lt member hmem
  · intro member hmem
    rcases List.mem_cons.1 hmem with rfl | hmem
    · exact ⟨token, List.mem_cons_self, rfl, hnot⟩
    · exact hmono.opened member hmem
  · intro member hmem
    rcases List.mem_cons.1 hmem with rfl | hmem
    · exact hclosed
    · exact hmono.closed member hmem
  · intro member hmem
    rcases List.mem_cons.1 hmem with rfl | hmem
    · exact fun next hnext => hbefore next (hafter.subset hnext)
    · exact h.before member hmem

/-- The members of a unit. -/
theorem membersIn_unitBody (word endWord : Text) (fuel depth : ℕ) {tokens : List LosslessToken}
    (hplaced : Placed tokens) :
    MembersIn tokens (unitBody word endWord fuel depth tokens).2 (unitBody word endWord fuel depth tokens).1 := by
  induction fuel generalizing depth tokens with
  | zero => exact MembersIn.nil _ _
  | succ fuel ih =>
    cases tokens with
    | nil => exact MembersIn.nil _ _
    | cons token rest =>
      have hrest (depth : ℕ) : MembersIn (token :: rest) (unitBody word endWord fuel depth rest).2
          (unitBody word endWord fuel depth rest).1 :=
        (ih depth (hplaced.sublist (List.sublist_cons_self token rest))).mono (List.subset_cons_self _ _)
      unfold unitBody
      dsimp only
      split
      · split
        · exact MembersIn.nil _ _
        · exact hrest _
      split
      · exact hrest _
      split
      · rename_i hmember
        have hsuffix := readMember_suffix endWord token rest
        exact membersIn_readMember hplaced hmember.2 (unitBody_suffix _ _ _ _ _)
          (ih depth (hplaced.sublist (hsuffix.sublist.trans (List.sublist_cons_self token rest))))
      · exact hrest _

/-- What is left of the tokens of a unit starts with its end. -/
theorem unitBody_head (word endWord : Text) (fuel depth : ℕ) (tokens : List LosslessToken) :
    ∀ token, (unitBody word endWord fuel depth tokens).2.head? = some token → token.keyword = endWord := by
  induction fuel generalizing depth tokens with
  | zero => exact fun token h => by cases h
  | succ fuel ih =>
    cases tokens with
    | nil => exact fun token h => by cases h
    | cons token rest =>
      unfold unitBody
      dsimp only
      split
      · rename_i hend
        split
        · intro other h
          cases h
          exact hend
        · exact ih _ _
      split
      · exact ih _ _
      split
      · exact ih _ _
      · exact ih _ _

/-- A token that ends a unit is a word. -/
theorem isWord_of_end {token : LosslessToken} {word endWord : Text} (htoken : token.keyword = endWord)
    (h : lookupWord unitEnds word = some endWord) : token.isWord = true ∧ token.Is ";" = false := by
  obtain ⟨entry, hfind, hentry⟩ := Option.map_eq_some_iff.1 h
  have hends : ∀ entry ∈ unitEnds, entry.2.toList ≠ [] ∧ entry.2.toList ≠ [';'] := by decide +kernel
  obtain ⟨hnil, hsymbol⟩ := hends entry (List.mem_of_find?_eq_some hfind)
  rw [hentry, ← htoken] at hnil hsymbol
  exact isWord_of_keyword_ne hnil hsymbol

/-- The spans of a unit and of its members. -/
structure UnitSpans (stop : ℕ) (unit : Unit) : Prop where
  inside : unit.stop ≤ stop
  ordered : unit.members.Pairwise fun a b => a.stop ≤ b.start
  member : ∀ member ∈ unit.members,
    unit.start ≤ member.start ∧ member.start < member.stop ∧ member.stop ≤ unit.stop

theorem unitSpans_readUnit (markers : List (ℕ × Text)) (last : ℕ × ℕ) (namespaces : List Text) {endWord : Text}
    {token : LosslessToken} {rest : List LosslessToken} (hplaced : Placed (token :: rest))
    (hlast : ∀ other ∈ token :: rest, other.stop ≤ last.1)
    (hend : lookupWord unitEnds token.keyword = some endWord) :
    UnitSpans last.1 (readUnit markers last namespaces endWord token rest).1 := by
  have hrest := hplaced.sublist (List.sublist_cons_self token rest)
  have hmembers := membersIn_unitBody token.keyword endWord rest.length 0 hrest
  have hhead := unitBody_head token.keyword endWord rest.length 0 rest
  have hsuffix := unitBody_suffix token.keyword endWord rest.length 0 rest
  have hstart {members : List Member} {after : List LosslessToken} (h : MembersIn rest after members) :
      ∀ member ∈ members, token.start ≤ member.start := by
    intro member hmem
    obtain ⟨next, hnext, hstart, -⟩ := h.opened member hmem
    have hle := (List.pairwise_cons.1 hplaced.ordered).1 next hnext
    exact hstart ▸ Nat.le_trans (hplaced.le token List.mem_cons_self) hle
  unfold readUnit
  dsimp only
  generalize unitBody token.keyword endWord rest.length 0 rest = read at hmembers hhead hsuffix ⊢
  obtain ⟨members, tokens⟩ := read
  dsimp only at hmembers hhead hsuffix ⊢
  cases tokens with
  | nil =>
    refine ⟨Nat.le_refl _, hmembers.ordered, fun member hmem => ⟨hstart hmembers member hmem, hmembers.lt member hmem, ?_⟩⟩
    obtain ⟨next, hnext, hstop⟩ := hmembers.closed member hmem
    exact hstop ▸ hlast next (List.mem_cons_of_mem _ hnext)
  | cons keyword after =>
    have hplaced' := hrest.sublist hsuffix.sublist
    have hnot : keyword.Is ";" = false := (isWord_of_end (hhead keyword rfl) hend).2
    refine ⟨?_, hmembers.ordered, fun member hmem => ⟨hstart hmembers member hmem, hmembers.lt member hmem, ?_⟩⟩
    · obtain ⟨next, hnext, hstop⟩ := spanEnd_mem keyword after
      dsimp only
      rw [hstop]
      exact hlast next (List.mem_cons_of_mem _ (hsuffix.subset hnext))
    · have hle := hmembers.before member hmem keyword List.mem_cons_self hnot
      exact Nat.le_trans hle (Nat.le_trans (hplaced'.le keyword List.mem_cons_self) (le_spanEnd hplaced'))

/-! ## Everything together -/

/-- The end of the last significant token. -/
def lastEnd (tokens : List LosslessToken) : ℕ × ℕ :=
  (((significant tokens).getLast?).map fun token => (token.stop, token.line)).getD (0, 0)

theorem Consecutive.stop_le {src : Text} {tokens : List LosslessToken} {i j : ℕ} (h : Consecutive src i tokens j) :
    ∀ token ∈ tokens, token.stop ≤ j := by
  induction tokens generalizing i with
  | nil => exact fun token hmem => by cases hmem
  | cons first rest ih =>
    intro token hmem
    rcases List.mem_cons.1 hmem with rfl | hmem
    · exact h.2.2.2.le
    · exact ih h.2.2.2 token hmem

/-- **Tokens and units of a text.**  The loop of `tokenize_lossless` ends on every text; its tokens are not empty,
consecutive, and make up the text; their lines and columns are those of the text.  The loop of `split_units` ends,
as every loop over the tokens of a unit does; its units lie in the text one after the other, and so do the members
of each in the unit. -/
theorem split_lossless (u : UnicodeData) (src : Text) :
    ((∃ t, Loop (tokenizeStep u src) .initial t ∧ t.tokens = tokenizeLossless u src) ∧
      Consecutive src 0 (tokenizeLossless u src) src.length ∧
      (tokenizeLossless u src).flatMap LosslessToken.text = src ∧
      ∀ token ∈ tokenizeLossless u src, (token.line, token.column) = position src token.start) ∧
    (∃ t, Loop (splitStep (markersOf (tokenizeLossless u src)) (lastEnd (tokenizeLossless u src)))
        ⟨[], significant (tokenizeLossless u src), []⟩ t ∧ t.units = splitUnits (tokenizeLossless u src)) ∧
    (∀ (word endWord : Text) (rest : List LosslessToken), ∃ t, Loop (bodyStep word endWord) ⟨0, rest, []⟩ t ∧
      (t.members, t.tokens) = unitBody word endWord rest.length 0 rest) ∧
    ((splitUnits (tokenizeLossless u src)).Pairwise fun a b => a.stop ≤ b.start) ∧
    ∀ unit ∈ splitUnits (tokenizeLossless u src), unit.start < unit.stop ∧ UnitSpans src.length unit := by
  obtain ⟨hloop, hconsecutive, hpositions⟩ := tokens_lossless u src
  have hjoin := hconsecutive.join
  rw [slice, List.take_length, List.drop_zero] at hjoin
  have hplaced := placed_significant u src
  have hunits := unitsIn_ofText u src
  refine ⟨⟨hloop, hconsecutive, hjoin, hpositions⟩, ?_, ?_, hunits.ordered, fun unit hunit => ⟨hunits.lt unit hunit, ?_⟩⟩
  · exact split_ends _ _ _ ⟨[], significant (tokenizeLossless u src), []⟩ (Nat.le_refl _)
  · intro word endWord rest
    obtain ⟨t, hloop, hmembers, htokens⟩ := body_ends word endWord rest.length ⟨0, rest, []⟩ (Nat.le_refl _)
    exact ⟨t, hloop, Prod.ext hmembers htokens⟩
  · have hlast : ∀ token ∈ significant (tokenizeLossless u src),
        token.stop ≤ (lastEnd (tokenizeLossless u src)).1 := by
      intro token hmem
      unfold lastEnd
      cases hlast : (significant (tokenizeLossless u src)).getLast? with
      | none =>
        rw [List.getLast?_eq_none_iff.1 hlast] at hmem
        cases hmem
      | some last => exact hplaced.stop_le_getLast hmem hlast
    have hwithin : (lastEnd (tokenizeLossless u src)).1 ≤ src.length := by
      unfold lastEnd
      cases hlast : (significant (tokenizeLossless u src)).getLast? with
      | none => exact Nat.zero_le _
      | some last =>
        exact hconsecutive.stop_le last (List.mem_of_mem_filter (List.mem_of_getLast? hlast))
    have hspans := forall_unitsFrom (markersOf (tokenizeLossless u src)) (lastEnd (tokenizeLossless u src))
      (fun namespaces endWord token rest hsuffix hend =>
        unitSpans_readUnit _ _ namespaces (hplaced.sublist hsuffix.sublist)
          (fun other hother => hlast other (hsuffix.subset hother)) hend)
      (significant (tokenizeLossless u src)).length [] (List.suffix_refl _) unit hunit
    exact ⟨Nat.le_trans hspans.inside hwithin, hspans.ordered, hspans.member⟩

end SemantiST.Intake
