import SemantiST.Lib.Python

/-!
# Lines of a text

`str.splitlines` and the parts between line feeds.
-/

namespace SemantiST.Lib

variable {s line : Text} {c : Char}

theorem isLineBreak_newline : isLineBreak '\n' = true := by decide

/-- A text whose only breaks are line feeds. -/
def PlainBreaks (s : Text) : Prop := ∀ c ∈ s, isLineBreak c = true → c = '\n'

/-- `str.splitlines`, one character at a time where no carriage return is followed by a line feed. -/
theorem splitlines_cons (hne : c ≠ '\r') : splitlines (c :: s) =
    if isLineBreak c then [] :: splitlines s
    else
      match splitlines s with
      | [] => [[c]]
      | l :: ls => (c :: l) :: ls := by
  exact splitlines.eq_3 c s fun s' hc => absurd hc hne

theorem splitlines_eq_nil_iff : splitlines s = [] ↔ s = [] := by
  constructor
  · intro h
    induction s using splitlines.induct with
    | case1 => rfl
    | case2 rest => cases h
    | case3 c rest hne hbreak =>
      rw [splitlines, if_pos hbreak] at h
      · cases h
      · exact hne
    | case4 c rest hne hbreak hnil =>
      rw [splitlines, if_neg hbreak, hnil] at h
      · cases h
      · exact hne
    | case5 c rest hne hbreak l ls hcons =>
      rw [splitlines, if_neg hbreak, hcons] at h
      · cases h
      · exact hne
  · rintro rfl
    rfl

/-- What `splitlines` leaves out: nothing follows the last line feed. -/
def lastLine (s : Text) : List Text := if s = [] ∨ s.getLast? = some '\n' then [[]] else []

/-- **The parts between line feeds are the lines**, and what follows the last line feed. -/
theorem splitOn_eq_splitlines (h : PlainBreaks s) : s.splitOn '\n' = splitlines s ++ lastLine s := by
  induction s with
  | nil => rfl
  | cons c s ih =>
    have ih := ih fun d hd => h d (List.mem_cons_of_mem _ hd)
    have hne : c ≠ '\r' := by
      rintro rfl
      exact absurd (h '\r' List.mem_cons_self (by decide)) (by decide)
    rw [List.splitOn_cons_eq_if_modifyHead, splitlines_cons hne, ih]
    by_cases hc : c = '\n'
    · subst hc
      have hlast : lastLine ('\n' :: s) = lastLine s := by
        cases s with
        | nil => rfl
        | cons d s => simp [lastLine]
      rw [if_pos (by decide), if_pos isLineBreak_newline, hlast]
      rfl
    · have hbreak : ¬isLineBreak c = true := fun hb => hc (h c List.mem_cons_self hb)
      rw [if_neg (by simpa using hc), if_neg hbreak]
      cases hs : splitlines s with
      | nil =>
        obtain rfl := splitlines_eq_nil_iff.1 hs
        simp [lastLine, hc]
      | cons l ls =>
        have hlast : lastLine (c :: s) = lastLine s := by
          cases s with
          | nil => cases hs
          | cons d s => simp [lastLine]
        rw [hlast]
        rfl

theorem exists_mem_splitOn (hc : c ∈ s) (hne : c ≠ '\n') : ∃ l ∈ s.splitOn '\n', c ∈ l := by
  induction s with
  | nil => cases hc
  | cons d s ih =>
    rw [List.splitOn_cons_eq_if_modifyHead]
    obtain ⟨l, ls, hs⟩ := List.exists_cons_of_ne_nil (List.splitOn_ne_nil '\n' s)
    by_cases hd : d = '\n'
    · rw [if_pos (by simpa using hd)]
      have hmem := (List.mem_cons.1 hc).resolve_left fun h => hne (h.trans hd)
      obtain ⟨l, hl, hcl⟩ := ih hmem
      exact ⟨l, List.mem_cons_of_mem _ hl, hcl⟩
    · rw [if_neg (by simpa using hd), hs, List.modifyHead_cons]
      rcases List.mem_cons.1 hc with rfl | hc
      · exact ⟨c :: l, List.mem_cons_self, List.mem_cons_self⟩
      · obtain ⟨m, hm, hcm⟩ := ih hc
        rw [hs] at hm
        rcases List.mem_cons.1 hm with rfl | hm
        · exact ⟨d :: m, List.mem_cons_self, List.mem_cons_of_mem _ hcm⟩
        · exact ⟨m, List.mem_cons_of_mem _ hm, hcm⟩

/-- The two ways to cut a text agree exactly where its only breaks are line feeds. -/
theorem plainBreaks_iff : PlainBreaks s ↔ s.splitOn '\n' = splitlines s ++ lastLine s := by
  refine ⟨splitOn_eq_splitlines, fun h c hc hbreak => ?_⟩
  by_contra hne
  obtain ⟨l, hl, hcl⟩ := exists_mem_splitOn hc hne
  rw [h] at hl
  rcases List.mem_append.1 hl with hl | hl
  · rw [notBreak_of_mem_splitlines hl c hcl] at hbreak
    cases hbreak
  · unfold lastLine at hl
    split at hl
    · rw [List.mem_singleton.1 hl] at hcl
      cases hcl
    · cases hl

/-- Lines, joined by line feeds. -/
theorem splitOn_intercalate_lastLine {ls : List Text} (hls : ∀ l ∈ ls, '\n' ∉ l) (hnil : ls = [] ↔ s = []) :
    (List.intercalate ['\n'] ls ++ if s.getLast? = some '\n' then ['\n'] else []).splitOn '\n' =
      ls ++ lastLine s := by
  unfold lastLine
  by_cases hs : s = []
  · rw [hnil.2 hs, hs]
    rfl
  · have hne : ls ≠ [] := fun h => hs (hnil.1 h)
    by_cases hlast : s.getLast? = some '\n'
    · rw [if_pos hlast, if_pos (.inr hlast)]
      have hjoin : List.intercalate ['\n'] ls ++ ['\n'] = List.intercalate ['\n'] (ls ++ [[]]) := by
        clear hnil hls
        induction ls with
        | nil => exact absurd rfl hne
        | cons l ls ih =>
          cases ls with
          | nil => simp
          | cons m ls =>
            rw [List.intercalate_cons_cons, List.append_assoc, ih (List.cons_ne_nil _ _)]
            simp [List.intercalate_cons_cons]
      rw [hjoin, List.splitOn_intercalate]
      · intro l hl
        rcases List.mem_append.1 hl with hl | hl
        · exact hls l hl
        · rw [List.mem_singleton.1 hl]
          exact List.not_mem_nil
      · simp
    · rw [if_neg hlast, if_neg (not_or.2 ⟨hs, hlast⟩), List.append_nil, List.append_nil,
        List.splitOn_intercalate _ hls hne]

/-! ## Texts one after the other -/

theorem splitlines_cons_cons {c d : Char} {s : Text} (h : ¬(c = '\r' ∧ d = '\n')) : splitlines (c :: d :: s) =
    if isLineBreak c then [] :: splitlines (d :: s)
    else
      match splitlines (d :: s) with
      | [] => [[c]]
      | l :: ls => (c :: l) :: ls := by
  refine splitlines.eq_3 c (d :: s) ?_
  rintro s' rfl heq
  exact h ⟨rfl, (List.cons.inj heq).1⟩

theorem splitlines_newline {s : Text} : splitlines ('\n' :: s) = [] :: splitlines s := by
  rw [splitlines_cons (by decide), if_pos isLineBreak_newline]

theorem splitlines_return_newline {s : Text} : splitlines ('\r' :: '\n' :: s) = splitlines ('\n' :: s) := by
  rw [splitlines_newline, splitlines]

/-- A line feed ends a line, whatever comes before it. -/
theorem splitlines_append_newline (a b : Text) :
    splitlines (a ++ '\n' :: b) = splitlines (a ++ ['\n']) ++ splitlines b := by
  induction a with
  | nil =>
    rw [List.nil_append, List.nil_append, splitlines_newline, splitlines_newline]
    rfl
  | cons c rest ih =>
    cases rest with
    | nil =>
      by_cases hc : c = '\r'
      · subst hc
        exact splitlines_return_newline.trans (ih.trans (congrArg (· ++ _) splitlines_return_newline.symm))
      · rw [List.singleton_append, List.singleton_append, splitlines_cons_cons fun h => hc h.1,
          splitlines_cons_cons fun h => hc h.1, splitlines_newline, splitlines_newline]
        split <;> rfl
    | cons d rest =>
      by_cases hpair : c = '\r' ∧ d = '\n'
      · obtain ⟨rfl, rfl⟩ := hpair
        exact splitlines_return_newline.trans (ih.trans (congrArg (· ++ _) splitlines_return_newline.symm))
      · have hne : splitlines (d :: (rest ++ ['\n'])) ≠ [] := fun h => nomatch splitlines_eq_nil_iff.1 h
        simp only [List.cons_append] at ih ⊢
        rw [splitlines_cons_cons hpair, splitlines_cons_cons hpair, ih]
        split
        · rfl
        · cases hlines : splitlines (d :: (rest ++ ['\n'])) with
          | nil => exact absurd hlines hne
          | cons l ls => rfl

/-- The lines with something on them. -/
def solid (lines : List Text) : List Text := lines.filter fun line => !line.isEmpty

@[simp] theorem solid_append (ks ls : List Text) : solid (ks ++ ls) = solid ks ++ solid ls := List.filter_append ks ls

@[simp] theorem solid_nil_cons (ls : List Text) : solid ([] :: ls) = solid ls := rfl

/-- A line feed at the end adds an empty line at most. -/
theorem splitlines_newline_cases (a : Text) :
    splitlines (a ++ ['\n']) = splitlines a ∨ splitlines (a ++ ['\n']) = splitlines a ++ [[]] := by
  induction a with
  | nil => exact .inr rfl
  | cons c rest ih =>
    cases rest with
    | nil =>
      by_cases hc : c = '\r'
      · subst hc
        exact .inl rfl
      · rw [List.singleton_append, splitlines_cons_cons fun h => hc h.1, splitlines_cons hc, splitlines_newline]
        split
        · exact .inr rfl
        · exact .inl rfl
    | cons d rest =>
      by_cases hpair : c = '\r' ∧ d = '\n'
      · obtain ⟨rfl, rfl⟩ := hpair
        rw [List.cons_append, List.cons_append, splitlines_return_newline, splitlines_return_newline,
          ← List.cons_append]
        exact ih
      · simp only [List.cons_append] at ih ⊢
        rw [splitlines_cons_cons hpair, splitlines_cons_cons hpair]
        obtain ⟨l, ls, hlines⟩ := List.exists_cons_of_ne_nil (l := splitlines (d :: rest))
          fun h => nomatch splitlines_eq_nil_iff.1 h
        rw [hlines] at ih ⊢
        rcases ih with ih | ih
        · rw [ih]
          exact .inl rfl
        · rw [ih]
          split
          · exact .inr rfl
          · exact .inr rfl

/-- A line feed at the end adds no line with something on it. -/
theorem solid_splitlines_newline (a : Text) : solid (splitlines (a ++ ['\n'])) = solid (splitlines a) := by
  rcases splitlines_newline_cases a with h | h
  · rw [h]
  · rw [h, solid_append]
    exact List.append_nil _

/-- The first line begins the text. -/
theorem prefix_of_splitlines {l : Text} {ls : List Text} (h : splitlines s = l :: ls) : l <+: s := by
  induction s using splitlines.induct generalizing l ls with
  | case1 => cases h
  | case2 rest =>
    rw [splitlines] at h
    obtain ⟨rfl, -⟩ := List.cons.inj h
    exact List.nil_prefix
  | case3 c rest hne hbreak =>
    rw [splitlines, if_pos hbreak] at h
    · obtain ⟨rfl, -⟩ := List.cons.inj h
      exact List.nil_prefix
    · exact hne
  | case4 c rest hne hbreak hnil =>
    rw [splitlines, if_neg hbreak, hnil] at h
    · obtain ⟨rfl, -⟩ := List.cons.inj h
      exact List.prefix_append [c] rest
    · exact hne
  | case5 c rest hne hbreak l ls hcons ih =>
    rw [splitlines, if_neg hbreak, hcons] at h
    · obtain ⟨rfl, -⟩ := List.cons.inj h
      exact List.prefix_cons_inj c |>.2 (ih hcons)
    · exact hne

/-- A line is a part of the text. -/
theorem infix_of_mem_splitlines (h : line ∈ splitlines s) : line <:+: s := by
  induction s using splitlines.induct generalizing line with
  | case1 => cases h
  | case2 rest ih =>
    rw [splitlines] at h
    rcases List.mem_cons.1 h with rfl | h
    · exact List.nil_infix
    · exact ((ih h).trans (List.suffix_cons _ _).isInfix).trans (List.suffix_cons _ _).isInfix
  | case3 c rest hne hbreak ih =>
    rw [splitlines, if_pos hbreak] at h
    · rcases List.mem_cons.1 h with rfl | h
      · exact List.nil_infix
      · exact (ih h).trans (List.suffix_cons _ _).isInfix
    · exact hne
  | case4 c rest hne hbreak hnil ih =>
    rw [splitlines, if_neg hbreak, hnil] at h
    · rw [List.mem_singleton.1 h]
      exact (List.prefix_append [c] rest).isInfix
    · exact hne
  | case5 c rest hne hbreak l ls hcons ih =>
    rw [splitlines, if_neg hbreak, hcons] at h
    · rcases List.mem_cons.1 h with rfl | h
      · exact ((List.prefix_cons_inj c).2 (prefix_of_splitlines hcons)).isInfix
      · exact (ih (hcons ▸ List.mem_cons_of_mem _ h)).trans (List.suffix_cons _ _).isInfix
    · exact hne

end SemantiST.Lib
