import SemantiST.Reporting.Reducer

/-!
# Whether deleting cycles ends

A cycle is found by the number that its fields begin with, and deleted by the decimal numeral of that number:
fields such as `01.x` are found and not deleted.  `_delete_cycles` does what it should exactly where no field
of a cycle is written so (`deleteCycles_iff`).
-/

namespace SemantiST.Reporting

open Lib

variable (u : CharacterData)

/-- The cycle of a record. -/
def cycleOf (record : SeedRecord) : Option ℤ := (cyclePrefix u record).bind (u.int 10)

/-- All records of some cycle are removed, and no record is added. -/
def RemovesCycle (current next : List SeedRecord) : Prop :=
  next.Sublist current ∧
    ∃ cycle, (∃ record ∈ current, cycleOf u record = some cycle) ∧ ∀ record ∈ next, cycleOf u record ≠ some cycle

/-- The fields of the cycles begin with decimal numerals without further zeros. -/
def Canonical (records : List SeedRecord) : Prop :=
  ∀ record ∈ records, ∀ before, cyclePrefix u record = some before → ∃ n, u.int 10 before = some n ∧ intText n = before

/-- There is a field that seems to begin with a number but that `int` does not read. -/
def Unreadable (records : List SeedRecord) : Prop :=
  ∃ record ∈ records, ∃ before, cyclePrefix u record = some before ∧ u.int 10 before = none

variable {u} {records current next : List SeedRecord} {record : SeedRecord} {before : Text} {cycle n : ℤ}
  {oracle : Oracle}

/-! ## Cycles of records -/

theorem cyclesOf_eq_none_iff : cyclesOf u records = none ↔ Unreadable u records := by
  rw [cyclesOf, Option.map_eq_none_iff, mapM_eq_none_iff]
  constructor
  · rintro ⟨before, hmem, hnone⟩
    obtain ⟨record, hrecord, hbefore⟩ := List.mem_filterMap.1 hmem
    exact ⟨record, hrecord, before, hbefore, hnone⟩
  · rintro ⟨record, hrecord, before, hbefore, hnone⟩
    exact ⟨before, List.mem_filterMap.2 ⟨record, hrecord, hbefore⟩, hnone⟩

theorem mem_cyclesOf {cycles : List ℤ} (h : cyclesOf u records = some cycles) :
    cycle ∈ cycles ↔ ∃ record ∈ records, cycleOf u record = some cycle := by
  obtain ⟨numbers, hnumbers, rfl⟩ := Option.map_eq_some_iff.1 h
  rw [List.mem_reverse, mem_sortDedup]
  constructor
  · intro hcycle
    obtain ⟨before, hmem, hread⟩ := mem_of_mapM hnumbers hcycle
    obtain ⟨record, hrecord, hbefore⟩ := List.mem_filterMap.1 hmem
    exact ⟨record, hrecord, by rw [cycleOf, hbefore, Option.bind_some, hread]⟩
  · rintro ⟨record, hrecord, hcycle⟩
    obtain ⟨before, hbefore, hread⟩ := Option.bind_eq_some_iff.1 hcycle
    obtain ⟨m, hm, heq⟩ := exists_of_mapM hnumbers (List.mem_filterMap.2 ⟨record, hrecord, hbefore⟩)
    rw [hread] at heq
    cases heq
    exact hm

theorem cyclePrefix_eq_some_iff : cyclePrefix u record = some before ↔
    ∃ rest, splitOnce '.' record.name = some (before, rest) ∧ before ≠ [] ∧ before.all u.isDigit = true ∧
      rest ≠ [] := by
  unfold cyclePrefix
  constructor
  · intro h
    obtain ⟨⟨before', rest⟩, hsplit, h⟩ := Option.bind_eq_some_iff.1 h
    dsimp only at h
    split at h
    · rename_i hall
      cases h
      exact ⟨rest, hsplit, hall⟩
    · cases h
  · rintro ⟨rest, hsplit, hall⟩
    rw [hsplit, Option.bind_some]
    exact if_pos hall

/-- A field whose number is written in the plain way is deleted with its cycle. -/
theorem inCycle_of_prefix (h : cyclePrefix u record = some (intText cycle)) : inCycle u cycle record = true := by
  obtain ⟨rest, hsplit, hne, hdigits, -⟩ := cyclePrefix_eq_some_iff.1 h
  obtain ⟨hname, -⟩ := splitOnce_eq_some_iff.1 hsplit
  have hbefore : beforeDot record.name = intText cycle := by
    rw [beforeDot, hsplit]
    rfl
  rw [inCycle, hbefore, Bool.and_eq_true, Bool.and_eq_true, List.isPrefixOf_iff_prefix]
  refine ⟨⟨rest, ?_⟩, decide_eq_true hne, hdigits⟩
  rw [hname, List.append_assoc]
  rfl

theorem dot_not_mem_intText : '.' ∉ intText n := by
  have hdecimal (k : ℕ) : '.' ∉ decimal k := fun hmem => by
    have := isDigit_of_mem_decimal hmem
    revert this
    decide
  unfold intText
  split
  · rw [List.mem_cons, not_or]
    exact ⟨by decide, hdecimal _⟩
  · exact hdecimal _

/-- A field is deleted with a cycle only where it begins with its decimal numeral. -/
theorem prefix_of_inCycle (h : inCycle u cycle record = true) (hbefore : cyclePrefix u record = some before) :
    before = intText cycle := by
  rw [inCycle, Bool.and_eq_true, List.isPrefixOf_iff_prefix] at h
  obtain ⟨⟨rest, hname⟩, -⟩ := h
  obtain ⟨rest', hsplit, -⟩ := cyclePrefix_eq_some_iff.1 hbefore
  rw [← hname, List.append_assoc, List.singleton_append, splitOnce_append dot_not_mem_intText] at hsplit
  cases hsplit
  rfl

/-- A decimal numeral is read as its number, if at all. -/
theorem int_intText (hpos : 0 ≤ cycle) (h : u.int 10 (intText cycle) = some n) : n = cycle := by
  have hdigits : ∀ c ∈ decimal cycle.natAbs, c.isDigit = true := fun c hc => isDigit_of_mem_decimal hc
  have hrange : ∀ c ∈ decimal cycle.natAbs, 0x21 ≤ c.toNat ∧ c.toNat ≤ 0x7e := fun c hc => by
    have := isDigit_range (hdigits c hc)
    omega
  rw [intText, if_neg (not_lt.2 hpos), int_ascii (fun c hc => by have := hrange c hc; omega)
    (trimmed_of_forall fun c hc => isSpace_graphic (hrange c hc))] at h
  rw [readSign_of_isDigit decimal_ne_nil hdigits] at h
  obtain ⟨m, hm, rfl⟩ := Option.map_eq_some_iff.1 h
  rw [show intMagnitude 10 (decimal cycle.natAbs) = groupedDecimal _ from if_pos rfl, groupedDecimal] at hm
  split at hm
  · cases hm
  · rw [groupedNumber_eq (fun hmem => by
      have := hdigits _ hmem
      revert this
      decide), readNumber_decimal] at hm
    cases hm
    exact Int.natAbs_of_nonneg hpos

/-- **A field that is not written in the plain way is deleted with no cycle.** -/
theorem not_inCycle (hbefore : cyclePrefix u record = some before) (hread : u.int 10 before = some n)
    (hne : intText n ≠ before) : inCycle u cycle record = false := by
  by_contra hin
  rw [Bool.not_eq_false] at hin
  obtain rfl := prefix_of_inCycle hin hbefore
  have hpos : 0 ≤ cycle := by
    by_contra hneg
    obtain ⟨rest, -, -, hdigits, -⟩ := cyclePrefix_eq_some_iff.1 hbefore
    rw [intText, if_pos (not_le.1 hneg), List.all_cons, u.isDigit_ascii '-' (by decide)] at hdigits
    cases hdigits
  rw [int_intText hpos hread] at hne
  exact hne rfl

/-! ## One round -/

theorem deleteCycle_next (h : deleteCycle u oracle current = .next next) : ∃ cycles, cyclesOf u current = some cycles ∧
    ∃ cycle ∈ cycles, next = withoutCycle u current cycle ∧ next ≠ [] ∧ reproduces u oracle next = some true := by
  unfold deleteCycle at h
  split at h
  · cases h
  · rename_i cycles hcycles
    obtain ⟨hmem, hok⟩ := (turnTo_next h).resolve_right fun h => nomatch h
    obtain ⟨hmem, hne⟩ := List.mem_filter.1 hmem
    obtain ⟨cycle, hcycle, rfl⟩ := List.mem_map.1 hmem
    exact ⟨cycles, hcycles, cycle, hcycle, rfl, of_decide_eq_true hne, hok⟩

theorem Canonical.subset (h : Canonical u current) (hsub : next ⊆ current) : Canonical u next :=
  fun record hrecord => h record (hsub hrecord)

/-- **Where the fields are written in the plain way, a round removes a cycle.** -/
theorem deleteCycle_removes (h : Canonical u current) (hturn : deleteCycle u oracle current = .next next) :
    RemovesCycle u current next ∧ next.length < current.length := by
  obtain ⟨cycles, hcycles, cycle, hcycle, rfl, -⟩ := deleteCycle_next hturn
  obtain ⟨record, hrecord, hof⟩ := (mem_cyclesOf hcycles).1 hcycle
  have hin {other : SeedRecord} (hother : other ∈ current) (hof : cycleOf u other = some cycle) :
      inCycle u cycle other = true := by
    obtain ⟨before, hbefore, hread⟩ := Option.bind_eq_some_iff.1 hof
    obtain ⟨n, hn, htext⟩ := h other hother before hbefore
    rw [hread] at hn
    cases hn
    exact inCycle_of_prefix (by rw [htext, hbefore])
  have hsub : (withoutCycle u current cycle).Sublist current := List.filter_sublist
  refine ⟨⟨hsub, cycle, ⟨record, hrecord, hof⟩, fun other hother hof' => ?_⟩, ?_⟩
  · obtain ⟨hmem, hnot⟩ := List.mem_filter.1 hother
    rw [hin hmem hof'] at hnot
    cases hnot
  · refine lt_of_le_of_ne hsub.length_le fun heq => ?_
    have hall := List.filter_eq_self.1 (hsub.eq_of_length heq) record hrecord
    rw [hin hrecord hof] at hall
    cases hall

/-! ## Whole runs -/

/-- **A field that is not written in the plain way keeps the loop going** when everything is accepted. -/
theorem not_ends_of_not_canonical (hwell : ∀ record ∈ records, WellFormed record) (hread : ¬Unreadable u records)
    (h : ¬Canonical u records) : ¬Ends (deleteCycle u fun _ => true) records := by
  unfold Canonical at h
  push Not at h
  obtain ⟨record, hrecord, before, hbefore, hodd⟩ := h
  obtain ⟨n, hn⟩ : ∃ n, u.int 10 before = some n := by
    refine Option.ne_none_iff_exists'.1 fun hnone => ?_
    exact hread ⟨record, hrecord, before, hbefore, hnone⟩
  refine not_ends (fun current => current ⊆ records ∧ record ∈ current) (fun current ⟨hsub, hmem⟩ => ?_)
    ⟨List.Subset.refl _, hrecord⟩
  obtain ⟨cycles, hcycles⟩ : ∃ cycles, cyclesOf u current = some cycles := by
    refine Option.ne_none_iff_exists'.1 fun hnone => ?_
    obtain ⟨other, hother, hbad⟩ := cyclesOf_eq_none_iff.1 hnone
    exact hread ⟨other, hsub hother, hbad⟩
  have hkept (cycle : ℤ) : record ∈ withoutCycle u current cycle := by
    refine List.mem_filter.2 ⟨hmem, ?_⟩
    rw [not_inCycle hbefore hn (hodd n hn)]
    rfl
  have hcycle : n ∈ cycles := (mem_cyclesOf hcycles).2 ⟨record, hmem, by rw [cycleOf, hbefore, Option.bind_some, hn]⟩
  obtain ⟨first, cycles, rfl⟩ := List.exists_cons_of_ne_nil (List.ne_nil_of_mem hcycle)
  have hfirst : withoutCycle u current first ⊆ current := List.filter_subset_self _
  refine .inr ⟨withoutCycle u current first, ?_, fun other hother => hsub (hfirst hother), hkept first⟩
  rw [deleteCycle, hcycles]
  dsimp only
  rw [List.map_cons, List.filter_cons_of_pos (by simpa using List.ne_nil_of_mem (hkept first))]
  refine turnTo_head (reproduces_all (fun other hother => hwell other (hsub (hfirst hother))) ?_)
  exact List.ne_nil_of_mem (hkept first)

theorem deleteCycles_of_canonical (oracle : Oracle) (h : Canonical u records) :
    Ends (deleteCycle u oracle) records ∧ ∀ current next, Passes (deleteCycle u oracle) records current →
      deleteCycle u oracle current = .next next → RemovesCycle u current next := by
  have hnext (current next : List SeedRecord) (hcurrent : Canonical u current)
      (hturn : deleteCycle u oracle current = .next next) : Canonical u next :=
    hcurrent.subset (deleteCycle_removes hcurrent hturn).1.1.subset
  constructor
  · refine ends_of_measure (Canonical u) List.length (fun current _ => ?_) (fun current next hcurrent hturn => ?_) h
    · unfold deleteCycle
      split
      · exact fun h => nomatch h
      · exact turnTo_ne_endless fun h => nomatch h
    · exact ⟨hnext current next hcurrent hturn, (deleteCycle_removes hcurrent hturn).2⟩
  · intro current next hpasses hturn
    exact (deleteCycle_removes (hpasses.invariant h hnext) hturn).1

theorem deleteCycles_of_unreadable (oracle : Oracle) (h : Unreadable u records) :
    Ends (deleteCycle u oracle) records ∧ ∀ current next, Passes (deleteCycle u oracle) records current →
      deleteCycle u oracle current = .next next → RemovesCycle u current next := by
  have hraised : deleteCycle u oracle records = .raised := by
    rw [deleteCycle, cyclesOf_eq_none_iff.2 h]
  refine ⟨.raised hraised, fun current next hpasses hturn => ?_⟩
  have hsame : current = records := by
    refine hpasses.invariant (I := fun s => s = records) rfl fun s s' hs hturn' => ?_
    rw [hs, hraised] at hturn'
    cases hturn'
  rw [hsame, hraised] at hturn
  cases hturn

/-- **Deleting cycles ends, and removes a cycle with every seed that is accepted, for every oracle exactly where
the fields of the cycles begin with decimal numerals without further zeros**, or `int` raises an error at once. -/
theorem deleteCycles_iff (u : CharacterData) (seed : Text) (records : List SeedRecord)
    (hparse : parseSeed u seed = some records) :
    (∀ oracle, Ends (deleteCycle u oracle) records ∧
      ∀ current next, Passes (deleteCycle u oracle) records current →
        deleteCycle u oracle current = .next next → RemovesCycle u current next) ↔
      Canonical u records ∨ Unreadable u records := by
  obtain ⟨-, hwell, -⟩ := parseSeed_spec hparse
  constructor
  · intro h
    by_contra hnot
    rw [not_or] at hnot
    exact not_ends_of_not_canonical hwell hnot.2 hnot.1 (h _).1
  · rintro (h | h) oracle
    · exact deleteCycles_of_canonical oracle h
    · exact deleteCycles_of_unreadable oracle h

/-- `01.start,INT,5` -/
def zeroPaddedSeed : Text := "01.start,INT,5\n".toList

theorem parseSeed_zeroPadded :
    parseSeed asciiCharacters zeroPaddedSeed = some [⟨"01.start".toList, "INT".toList, "5".toList, 0⟩] := by
  decide +kernel

/-- The field of cycle 1 is found and not deleted, and the seed as it was is accepted again and again. -/
theorem deleteCycles_endless : ¬∀ (seed : Text) (records : List SeedRecord),
    parseSeed asciiCharacters seed = some records → ∀ oracle, Ends (deleteCycle asciiCharacters oracle) records ∧
      ∀ current next, Passes (deleteCycle asciiCharacters oracle) records current →
        deleteCycle asciiCharacters oracle current = .next next →
          RemovesCycle asciiCharacters current next := by
  intro h
  have hprefix : cyclePrefix asciiCharacters ⟨"01.start".toList, "INT".toList, "5".toList, 0⟩ =
      some "01".toList := by decide
  have hread : asciiCharacters.int 10 "01".toList = some 1 := by decide
  refine not_ends_of_not_canonical (parseSeed_spec parseSeed_zeroPadded).2.1 ?_ ?_
    (h zeroPaddedSeed _ parseSeed_zeroPadded fun _ => true).1
  · rintro ⟨record, hrecord, before, hbefore, hnone⟩
    rw [List.mem_singleton.1 hrecord, hprefix] at hbefore
    rw [← Option.some.inj hbefore, hread] at hnone
    cases hnone
  · intro hcanonical
    obtain ⟨n, hn, htext⟩ := hcanonical _ List.mem_cons_self _ hprefix
    rw [hread] at hn
    cases hn
    revert htext
    decide

theorem deleteCycles_iff_zeroPadded :
    (∀ oracle, Ends (deleteCycle asciiCharacters oracle) [⟨"01.start".toList, "INT".toList, "5".toList, 0⟩] ∧
      ∀ current next, Passes (deleteCycle asciiCharacters oracle)
          [⟨"01.start".toList, "INT".toList, "5".toList, 0⟩] current →
        deleteCycle asciiCharacters oracle current = .next next → RemovesCycle asciiCharacters current next) ↔
      Canonical asciiCharacters [⟨"01.start".toList, "INT".toList, "5".toList, 0⟩] ∨
        Unreadable asciiCharacters [⟨"01.start".toList, "INT".toList, "5".toList, 0⟩] :=
  deleteCycles_iff asciiCharacters zeroPaddedSeed _ parseSeed_zeroPadded

end SemantiST.Reporting
