import Mathlib.Data.List.Perm.Subperm
import SemantiST.Mutation.WellFormed

/-!
# Printed seeds

A seed that is read or mutated is read back from the text it is serialized to.
-/

namespace SemantiST.Mutation

open Lib Lib.Drawn Semantic

/-- The seed is read back from its text. -/
def RoundTrips (seed : CycleAwareSeed) : Prop := parseCycleAwareSeed (serializeCycleAwareSeed seed) = seed

/-! ## Printable records -/

/-- A part of a line between commas: neither empty nor with a comma or a line feed in it. -/
def Part (part : Text) : Prop := part ≠ [] ∧ ',' ∉ part ∧ '\n' ∉ part

/-- A record of which a line with a prefix is read back. -/
structure Printable (record : StRecord) : Prop where
  name : Part record.name
  nameEnd : ∀ c ∈ record.name.getLast?, isWhitespace c = false
  ty : Part record.ty
  tyTrimmed : Trimmed isWhitespace record.ty
  tyUpper : toAsciiUppercase record.ty = record.ty
  value : Trimmed isWhitespace record.value ∧ '\n' ∉ record.value

/-- A record of which a line without a prefix is read back. -/
structure PrintableShared (record : StRecord) : Prop extends Printable record where
  nameStart : ∀ c ∈ record.name.head?, isWhitespace c = false
  unprefixed : splitCyclePrefix record.name = none

structure PrintableSeed (seed : CycleAwareSeed) : Prop where
  shared : ∀ record ∈ seed.shared, PrintableShared record
  cycles : ∀ record, InCycle seed record → Printable record
  filled : Filled seed
  bounded : Bounded seed.cycles

section Records

variable {record record' : StRecord}

theorem Printable.rewrite (h : Printable record) (hrewrite : Rewrite record record') : Printable record' := by
  refine ⟨hrewrite.name ▸ h.name, hrewrite.name ▸ h.nameEnd, hrewrite.ty ▸ h.ty, hrewrite.ty ▸ h.tyTrimmed,
    hrewrite.ty ▸ h.tyUpper, ?_⟩
  rcases hrewrite.value with hsame | hplain
  · exact hsame ▸ h.value
  · refine ⟨trimmed_of_forall hplain, fun hmem => ?_⟩
    exact absurd (hplain _ hmem) (by decide)

theorem PrintableShared.rewrite (h : PrintableShared record) (hrewrite : Rewrite record record') :
    PrintableShared record' :=
  ⟨h.toPrintable.rewrite hrewrite, hrewrite.name ▸ h.nameStart, hrewrite.name ▸ h.unprefixed⟩

theorem printable_defaultRecord : Printable defaultRecord :=
  ⟨by unfold Part; decide, by rintro _ ⟨⟩; rfl, by unfold Part; decide, by decide, by decide, by decide⟩

end Records

/-! ## Lines -/

section Lines

variable {name ty value line : Text} {cycle : ℕ} {record : StRecord}

theorem structuredRecordFields_line (hname : Part name) (hnameTrimmed : Trimmed isWhitespace name) (hty : Part ty)
    (htyTrimmed : Trimmed isWhitespace ty) (hvalue : Trimmed isWhitespace value) :
    structuredRecordFields (name ++ ',' :: (ty ++ ',' :: value)) = some (name, ty, value) := by
  have hempty {part : Text} (h : Part part) : part.isEmpty = false := Bool.eq_false_iff.2 fun hnil =>
    h.1 (List.isEmpty_iff.1 hnil)
  simp only [structuredRecordFields, splitOnce_append hname.2.1, splitOnce_append hty.2.1, Option.bind_some,
    Option.getD_some, trim_of_trimmed hnameTrimmed, trim_of_trimmed htyTrimmed, trim_of_trimmed hvalue, hempty hname,
    hempty hty, Bool.or_self, Bool.false_eq_true, if_false]

theorem part_trim {s : Text} (hcomma : ',' ∉ s) (hnewline : '\n' ∉ s)
    (hempty : (trim isWhitespace s).isEmpty = false) : Part (trim isWhitespace s) := by
  refine ⟨?_, fun h => hcomma (mem_of_mem_trim h), fun h => hnewline (mem_of_mem_trim h)⟩
  intro hnil
  rw [hnil] at hempty
  cases hempty

/-- The parts of a line that is read. -/
theorem structuredRecordFields_eq_some (hline : '\n' ∉ line)
    (h : structuredRecordFields line = some (name, ty, value)) :
    (Part name ∧ Trimmed isWhitespace name) ∧ (Part ty ∧ Trimmed isWhitespace ty) ∧
      (Trimmed isWhitespace value ∧ '\n' ∉ value) := by
  obtain ⟨⟨first, rest⟩, hsplit, hparts⟩ := Option.bind_eq_some_iff.1 h
  obtain ⟨rfl, hfirst⟩ := splitOnce_eq_some_iff.1 hsplit
  have hline : '\n' ∉ first ∧ '\n' ∉ rest := by
    simp only [List.mem_append, List.mem_cons, not_or] at hline
    exact ⟨hline.1, hline.2.2⟩
  -- the second comma is optional
  obtain ⟨second, third, hrest, hsecond⟩ : ∃ second third, (splitOnce ',' rest).getD (rest, []) = (second, third) ∧
      (',' ∉ second ∧ '\n' ∉ second) ∧ '\n' ∉ third := by
    cases hsplit' : splitOnce ',' rest with
    | none => exact ⟨rest, [], rfl, ⟨splitOnce_eq_none_iff.1 hsplit', hline.2⟩, List.not_mem_nil⟩
    | some parts =>
      rcases parts with ⟨second, third⟩
      obtain ⟨rfl, hsecond⟩ := splitOnce_eq_some_iff.1 hsplit'
      have hrest := hline.2
      simp only [List.mem_append, List.mem_cons, not_or] at hrest
      exact ⟨second, third, rfl, ⟨hsecond, hrest.1⟩, hrest.2.2⟩
  dsimp only at hparts
  rw [hrest] at hparts
  dsimp only at hparts
  split at hparts
  · cases hparts
  · rename_i hempty
    rw [Bool.or_eq_true, not_or, Bool.not_eq_true, Bool.not_eq_true] at hempty
    cases hparts
    exact ⟨⟨part_trim hfirst hline.1 hempty.1, trimmed_trim _ _⟩,
      ⟨part_trim hsecond.1.1 hsecond.1.2 hempty.2, trimmed_trim _ _⟩, trimmed_trim _ _,
      fun h => hsecond.2 (mem_of_mem_trim h)⟩

theorem isWhitespace_toUpper (c : Char) : isWhitespace c.toUpper = isWhitespace c := by
  by_cases hlower : 97 ≤ c.toNat ∧ c.toNat ≤ 122
  · have hupper : c.toUpper.toNat = c.toNat - 32 := by rw [toNat_toUpper, if_pos hlower]
    have hfalse {d : Char} (hd : 65 ≤ d.toNat ∧ d.toNat ≤ 122) : isWhitespace d = false := by
      simp only [isWhitespace, Bool.or_eq_false_iff, Bool.and_eq_false_iff, decide_eq_false_iff_not, beq_eq_false_iff_ne]
      omega
    rw [hfalse (d := c) (by omega), hfalse (d := c.toUpper) (by omega)]
  · have hsame : c.toUpper = c := by
      rw [← Char.toNat_inj, toNat_toUpper, if_neg hlower]
    rw [hsame]

theorem trimmed_toAsciiUppercase (h : Trimmed isWhitespace ty) : Trimmed isWhitespace (toAsciiUppercase ty) := by
  constructor
  · intro c hc
    rw [toAsciiUppercase, List.head?_map] at hc
    obtain ⟨d, hd, rfl⟩ := Option.map_eq_some_iff.1 hc
    rw [isWhitespace_toUpper]
    exact h.1 d hd
  · intro c hc
    rw [toAsciiUppercase, List.getLast?_map] at hc
    obtain ⟨d, hd, rfl⟩ := Option.map_eq_some_iff.1 hc
    rw [isWhitespace_toUpper]
    exact h.2 d hd

/-- A character that is no letter is the upper case of itself only. -/
theorem mem_toAsciiUppercase {c : Char} (hc : c.toNat < 65) (h : c ∈ toAsciiUppercase ty) : c ∈ ty := by
  obtain ⟨d, hd, rfl⟩ := List.mem_map.1 h
  rw [toNat_toUpper] at hc
  have hnot : ¬ (97 ≤ d.toNat ∧ d.toNat ≤ 122) := fun hlower => by
    rw [if_pos hlower] at hc
    omega
  have hsame : d.toUpper = d := by
    rw [← Char.toNat_inj, toNat_toUpper, if_neg hnot]
  rwa [hsame]

theorem part_toAsciiUppercase (h : Part ty) : Part (toAsciiUppercase ty) :=
  ⟨fun hnil => h.1 (List.map_eq_nil_iff.1 hnil), fun hmem => h.2.1 (mem_toAsciiUppercase (by decide) hmem),
    fun hmem => h.2.2 (mem_toAsciiUppercase (by decide) hmem)⟩

theorem toAsciiUppercase_idem (ty : Text) : toAsciiUppercase (toAsciiUppercase ty) = toAsciiUppercase ty := by
  unfold toAsciiUppercase
  rw [List.map_map]
  apply List.map_congr_left
  intro c _
  change c.toUpper.toUpper = c.toUpper
  rw [← Char.toNat_inj, toNat_toUpper c.toUpper, if_neg]
  rw [toNat_toUpper]
  split <;> omega

/-! ### Prefixes -/

theorem dot_not_mem_decimal (n : ℕ) : '.' ∉ decimal n := fun h => absurd (isDigit_of_mem_decimal h) (by decide)

theorem parseUnsigned_decimal {n : ℕ} (h : n ≤ u64Max) : parseUnsigned u64Max (decimal n) = some n := by
  have hplus (rest : Text) : decimal n ≠ '+' :: rest := fun heq =>
    absurd (@isDigit_of_mem_decimal n '+' (heq ▸ List.mem_cons_self)) (by decide)
  unfold parseUnsigned
  split
  · rename_i rest heq
    exact absurd heq (hplus rest)
  · dsimp only
    rw [readNumber_decimal, Option.bind_some, if_pos h]

/-- **A prefix is read back.** -/
theorem splitCyclePrefix_decimal (hcycle : cycle ≤ u64Max) (hname : name ≠ []) :
    splitCyclePrefix (decimal cycle ++ '.' :: name) = some (cycle, name) := by
  have hdigits : (decimal cycle).all Char.isDigit = true := List.all_eq_true.2 fun c hc => isDigit_of_mem_decimal hc
  have hempty : (decimal cycle).isEmpty = false := Bool.eq_false_iff.2 fun h => decimal_ne_nil (List.isEmpty_iff.1 h)
  have hname' : name.isEmpty = false := Bool.eq_false_iff.2 fun h => hname (List.isEmpty_iff.1 h)
  rw [splitCyclePrefix, splitOnce_append (dot_not_mem_decimal cycle), Option.bind_some]
  simp only [hempty, hname', hdigits, Bool.not_true, Bool.or_self, Bool.false_eq_true, if_false,
    parseUnsigned_decimal hcycle, Option.map_some]

/-- The fields of the line of a record. -/
def lineFields (cycle : Option ℕ) (record : StRecord) : Text × Text × Text :=
  ((cycle.elim [] fun cycle => decimal cycle ++ ['.']) ++ record.name, record.ty, record.value)

theorem structuredRecordFields_shared (h : PrintableShared record) :
    structuredRecordFields (recordLine none record) = some (lineFields none record) :=
  structuredRecordFields_line h.name ⟨h.nameStart, h.nameEnd⟩ h.ty h.tyTrimmed h.value.1

theorem structuredRecordFields_cycle (h : Printable record) :
    structuredRecordFields (recordLine (some cycle) record) = some (lineFields (some cycle) record) := by
  have hdigit {c : Char} (hc : c ∈ decimal cycle) : c.isDigit = true := isDigit_of_mem_decimal hc
  refine structuredRecordFields_line ⟨?_, ?_, ?_⟩ ⟨?_, ?_⟩ h.ty h.tyTrimmed h.value.1
  · exact List.append_ne_nil_of_right_ne_nil _ h.name.1
  · simp only [Option.elim_some, List.mem_append, List.mem_singleton, not_or]
    exact ⟨⟨fun hc => absurd (hdigit hc) (by decide), by decide⟩, h.name.2.1⟩
  · simp only [Option.elim_some, List.mem_append, List.mem_singleton, not_or]
    exact ⟨⟨fun hc => absurd (hdigit hc) (by decide), by decide⟩, h.name.2.2⟩
  · intro c hc
    have hmem : c ∈ decimal cycle := by
      obtain ⟨d, digits, heq⟩ := List.exists_cons_of_ne_nil (@decimal_ne_nil cycle)
      rw [Option.elim_some, heq] at hc
      rw [heq, ← Option.some.inj (Option.mem_def.1 hc)]
      exact List.mem_cons_self
    exact plain_decimal cycle c hmem
  · intro c hc
    rw [List.getLast?_append_of_ne_nil _ h.name.1] at hc
    exact h.nameEnd c hc

/-- Lines of printable records are read as they are. -/
theorem line_of_printable (cycle : Option ℕ) (h : Printable record) :
    '\n' ∉ recordLine cycle record ∧ (recordLine cycle record).getLast? ≠ some '\r' := by
  constructor
  · have hprefix : '\n' ∉ cycle.elim [] fun cycle => decimal cycle ++ ['.'] := by
      cases cycle with
      | none => exact List.not_mem_nil
      | some cycle =>
        simp only [Option.elim_some, List.mem_append, List.mem_singleton, not_or]
        exact ⟨fun hc => absurd (isDigit_of_mem_decimal hc) (by decide), by decide⟩
    simp only [recordLine, List.mem_append, List.mem_cons, not_or]
    exact ⟨⟨ hprefix, h.name.2.2⟩, by decide, h.ty.2.2, by decide, h.value.2⟩
  · intro hlast
    rw [recordLine, List.getLast?_append_of_ne_nil _ (List.cons_ne_nil _ _), ← List.singleton_append,
      List.getLast?_append_of_ne_nil _ (by simp), List.getLast?_append_of_ne_nil _ (List.cons_ne_nil _ _)] at hlast
    cases hvalue : record.value with
    | nil =>
      rw [hvalue] at hlast
      cases hlast
    | cons c rest =>
      rw [hvalue, ← List.singleton_append, List.getLast?_append_of_ne_nil _ (List.cons_ne_nil _ _), ← hvalue] at hlast
      exact absurd (h.value.1.2 '\r' hlast) (by decide)

end Lines

/-! ## Texts -/

section Texts

variable {seed : CycleAwareSeed} {records : List StRecord} {cycle : ℕ}

/-- Shared records are read one after the other. -/
theorem foldl_addRecord_shared (h : ∀ record ∈ records, splitCyclePrefix record.name = none)
    (hupper : ∀ record ∈ records, toAsciiUppercase record.ty = record.ty) :
    (records.map (lineFields none)).foldl CycleAwareSeed.addRecord seed =
      { seed with shared := seed.shared ++ records } := by
  induction records generalizing seed with
  | nil => simp
  | cons record records ih =>
    have hadd : seed.addRecord (lineFields none record) = { seed with shared := seed.shared ++ [record] } := by
      simp only [CycleAwareSeed.addRecord, lineFields, Option.elim_none, List.nil_append, h record List.mem_cons_self,
        hupper record List.mem_cons_self]
    rw [List.map_cons, List.foldl_cons, hadd, ih (fun r hr => h r (List.mem_cons_of_mem _ hr))
      (fun r hr => hupper r (List.mem_cons_of_mem _ hr)), List.append_assoc]
    rfl

theorem insert_insert_self {cycles : CycleMap} {first second : List StRecord} :
    (cycles.insert cycle first).insert cycle second = cycles.insert cycle second := by
  apply Std.ExtTreeMap.ext_getElem?
  intro k
  rw [getElem?_insert_eq, getElem?_insert_eq, getElem?_insert_eq]
  split <;> rfl

/-- The records of a cycle are read into that cycle. -/
theorem foldl_addRecord_cycle (hcycle : cycle ≤ u64Max) (hne : records ≠ [])
    (h : ∀ record ∈ records, Printable record) :
    (records.map (lineFields (some cycle))).foldl CycleAwareSeed.addRecord seed =
      { seed with cycles := seed.cycles.insert cycle (seed.cycles[cycle]?.getD [] ++ records) } := by
  induction records generalizing seed with
  | nil => exact absurd rfl hne
  | cons record records ih =>
    have hrecord := h record List.mem_cons_self
    have hadd : seed.addRecord (lineFields (some cycle) record) =
        { seed with cycles := seed.cycles.insert cycle (seed.cycles[cycle]?.getD [] ++ [record]) } := by
      have hname : (decimal cycle ++ ['.']) ++ record.name = decimal cycle ++ '.' :: record.name := by simp
      simp only [CycleAwareSeed.addRecord, lineFields, Option.elim_some, hname,
        splitCyclePrefix_decimal hcycle hrecord.name.1, hrecord.tyUpper]
    rw [List.map_cons, List.foldl_cons, hadd]
    by_cases hrest : records = []
    · rw [hrest]
      rfl
    · rw [ih hrest fun r hr => h r (List.mem_cons_of_mem _ hr)]
      dsimp only
      rw [getElem?_insert_eq, if_pos rfl, insert_insert_self, Option.getD_some, List.append_assoc]
      rfl

/-- The cycles are read one after the other. -/
theorem foldl_addRecord_cycles {entries : List (ℕ × List StRecord)} (hnodup : (entries.map Prod.fst).Nodup)
    (hnew : ∀ entry ∈ entries, seed.cycles[entry.1]? = none)
    (h : ∀ entry ∈ entries, entry.1 ≤ u64Max ∧ entry.2 ≠ [] ∧ ∀ record ∈ entry.2, Printable record) :
    (entries.flatMap fun (cycle, records) => records.map (lineFields (some cycle))).foldl CycleAwareSeed.addRecord seed =
      { seed with cycles := insertAll seed.cycles entries } := by
  induction entries generalizing seed with
  | nil => rfl
  | cons entry entries ih =>
    rcases entry with ⟨cycle, records⟩
    obtain ⟨hcycle, hne, hprintable⟩ := h _ List.mem_cons_self
    rw [List.map_cons, List.nodup_cons] at hnodup
    rw [List.flatMap_cons, List.foldl_append, foldl_addRecord_cycle hcycle hne hprintable,
      hnew _ List.mem_cons_self, ih hnodup.2]
    · rfl
    · intro entry hentry
      have hne : cycle ≠ entry.1 := fun heq => hnodup.1 (List.mem_map.2 ⟨entry, hentry, heq.symm⟩)
      dsimp only
      rw [getElem?_insert_eq, if_neg hne]
      exact hnew entry (List.mem_cons_of_mem _ hentry)
    · exact fun entry hentry => h entry (List.mem_cons_of_mem _ hentry)

/-- **A printable seed is read back from its text.** -/
theorem PrintableSeed.roundTrips (h : PrintableSeed seed) : RoundTrips seed := by
  have hentry : ∀ entry ∈ seed.cycles.toList,
      entry.1 ≤ u64Max ∧ entry.2 ≠ [] ∧ ∀ record ∈ entry.2, Printable record := by
    rintro ⟨cycle, records⟩ hmem
    have hrecords := Std.ExtTreeMap.mem_toList_iff_getElem?_eq_some.1 hmem
    refine ⟨h.bounded cycle ?_, h.filled cycle records hrecords, fun record hrecord =>
      h.cycles record ⟨cycle, records, hrecords, hrecord⟩⟩
    rw [Std.ExtTreeMap.mem_iff_isSome_getElem?, hrecords]
    rfl
  have hlines : lines (serializeCycleAwareSeed seed) = seed.shared.map (recordLine none) ++
      seed.cycles.toList.flatMap fun (cycle, records) => records.map (recordLine (some cycle)) := by
    apply lines_unlines
    intro line hline
    rcases List.mem_append.1 hline with hline | hline
    · obtain ⟨record, hrecord, rfl⟩ := List.mem_map.1 hline
      exact line_of_printable none (h.shared record hrecord).toPrintable
    · obtain ⟨⟨cycle, records⟩, hmem, hline⟩ := List.mem_flatMap.1 hline
      obtain ⟨record, hrecord, rfl⟩ := List.mem_map.1 hline
      exact line_of_printable (some cycle) ((hentry _ hmem).2.2 record hrecord)
  have hshared : (seed.shared.map (recordLine none)).filterMap structuredRecordFields =
      seed.shared.map (lineFields none) := by
    rw [List.filterMap_map, List.filterMap_eq_map_iff_forall_eq_some]
    exact fun record hrecord => structuredRecordFields_shared (h.shared record hrecord)
  have hcycles : (seed.cycles.toList.flatMap fun (cycle, records) => records.map (recordLine (some cycle))).filterMap
      structuredRecordFields =
        seed.cycles.toList.flatMap fun (cycle, records) => records.map (lineFields (some cycle)) := by
    rw [List.filterMap_flatMap]
    apply List.flatMap_congr
    rintro ⟨cycle, records⟩ hmem
    rw [List.filterMap_map, List.filterMap_eq_map_iff_forall_eq_some]
    exact fun record hrecord => structuredRecordFields_cycle ((hentry _ hmem).2.2 record hrecord)
  have hempty (entry : ℕ × List StRecord) : (∅ : CycleMap)[entry.1]? = none := Std.ExtTreeMap.getElem?_empty
  rw [RoundTrips, parseCycleAwareSeed, hlines, List.filterMap_append, hshared, hcycles, List.foldl_append,
    foldl_addRecord_shared (fun r hr => (h.shared r hr).unprefixed) fun r hr => (h.shared r hr).tyUpper,
    foldl_addRecord_cycles (nodup_keys_toList _) (fun entry _ => hempty entry) hentry]
  simp only [insertAll_toList, List.nil_append]

theorem printableSeed_parse (text : Text) : PrintableSeed (parseCycleAwareSeed text) := by
  suffices h : (∀ record ∈ (parseCycleAwareSeed text).shared, PrintableShared record) ∧
      ∀ record, InCycle (parseCycleAwareSeed text) record → Printable record from
    ⟨h.1, h.2, filled_parse text, bounded_parse text⟩
  refine @parseCycleAwareSeed_induction (fun seed => (∀ record ∈ seed.shared, PrintableShared record) ∧
    ∀ record, InCycle seed record → Printable record) ?_ ?_ text
  · refine ⟨fun record h => absurd h List.not_mem_nil, ?_⟩
    rintro record ⟨id, records, h, -⟩
    rw [Std.ExtTreeMap.getElem?_empty] at h
    cases h
  · rintro seed line ⟨name, ty, value⟩ ⟨hshared, hcycles⟩ hnewline hline
    obtain ⟨⟨hname, hnameTrimmed⟩, ⟨hty, htyTrimmed⟩, hvalue⟩ := structuredRecordFields_eq_some hnewline hline
    unfold CycleAwareSeed.addRecord
    dsimp only
    split
    · rename_i cycle field hprefix
      obtain ⟨hdigits, hfield⟩ : (∃ digits, name = digits ++ '.' :: field) ∧ field ≠ [] := by
        refine ⟨?_, (splitCyclePrefix_eq_some hprefix).2⟩
        obtain ⟨⟨digits, rest⟩, hsplit, h⟩ := Option.bind_eq_some_iff.1 hprefix
        dsimp only at h
        split at h
        · cases h
        · obtain ⟨n, -, heq⟩ := Option.map_eq_some_iff.1 h
          cases heq
          exact ⟨digits, (splitOnce_eq_some_iff.1 hsplit).1⟩
      obtain ⟨digits, rfl⟩ := hdigits
      have hsub {c : Char} (hc : c ∈ field) : c ∈ digits ++ '.' :: field :=
        List.mem_append_right _ (List.mem_cons_of_mem _ hc)
      have hrecord : Printable ⟨field, toAsciiUppercase ty, value⟩ := by
        refine ⟨⟨hfield, fun hc => hname.2.1 (hsub hc), fun hc => hname.2.2 (hsub hc)⟩, ?_, part_toAsciiUppercase hty,
          trimmed_toAsciiUppercase htyTrimmed, toAsciiUppercase_idem ty, hvalue⟩
        intro c hc
        apply hnameTrimmed.2 c
        rw [List.getLast?_append_of_ne_nil _ (List.cons_ne_nil _ _), ← List.singleton_append,
          List.getLast?_append_of_ne_nil _ hfield]
        exact hc
      refine ⟨hshared, ?_⟩
      rintro record ⟨id, records, h, hmem⟩
      dsimp only at h
      rw [getElem?_insert_eq] at h
      split at h
      · obtain rfl := Option.some.inj h
        rcases List.mem_append.1 hmem with hold | hnew
        · cases hentry : seed.cycles[cycle]? with
          | none =>
            rw [hentry] at hold
            exact absurd hold List.not_mem_nil
          | some old =>
            rw [hentry] at hold
            exact hcycles record ⟨cycle, old, hentry, hold⟩
        · rw [List.mem_singleton.1 hnew]
          exact hrecord
      · exact hcycles record ⟨id, records, h, hmem⟩
    · rename_i hprefix
      refine ⟨?_, hcycles⟩
      intro record hmem
      rcases List.mem_append.1 hmem with hold | hnew
      · exact hshared record hold
      · rw [List.mem_singleton.1 hnew]
        exact ⟨⟨hname, hnameTrimmed.2, part_toAsciiUppercase hty, trimmed_toAsciiUppercase htyTrimmed,
          toAsciiUppercase_idem ty, hvalue⟩, hnameTrimmed.1, hprefix⟩

end Texts

/-! ## Mutated seeds -/

section Mutated

variable {F : Type} {fl : Floats F} {maxCycles : ℕ} {seed new : CycleAwareSeed}

theorem size_le_of_bounded {cycles : CycleMap} (h : Bounded cycles) : cycles.size ≤ u64Max + 1 := by
  have hnodup : cycles.keys.Nodup := by
    have hdistinct := Std.ExtTreeMap.distinct_keys (t := cycles)
    exact hdistinct.imp fun hne heq => hne (by rw [heq]; exact Std.ReflCmp.compare_self)
  have hsub : cycles.keys ⊆ List.range (u64Max + 1) := by
    intro id hid
    exact List.mem_range.2 (Nat.lt_succ_of_le (h id (Std.ExtTreeMap.mem_keys.1 hid)))
  have hle := (List.subperm_of_subset hnodup hsub).length_le
  rwa [Std.ExtTreeMap.length_keys, List.length_range] at hle

/-- What a mutator makes of a printable seed is printable. -/
theorem PrintableSeed.step (h : PrintableSeed seed) (hmax : maxCycles ≤ u64Max) (hstep : Step maxCycles seed new) :
    PrintableSeed new := by
  refine ⟨?_, ?_, hstep.filled, ?_⟩
  · intro record hrecord
    obtain ⟨record', hmem, hrewrite⟩ := hstep.shared.exists_of_mem hrecord
    exact (h.shared record' hmem).rewrite hrewrite
  · intro record hrecord
    obtain ⟨record', havailable, hrewrite⟩ := hstep.origin record hrecord
    refine Printable.rewrite ?_ hrewrite
    rcases havailable with hcycle | ⟨-, hshared | rfl⟩
    · exact h.cycles record' hcycle
    · exact (h.shared record' hshared).toPrintable
    · exact printable_defaultRecord
  · intro id hid
    have hsize := size_le_of_bounded h.bounded
    rcases hstep.numbers id hid with hold | hlast | hcount
    · exact h.bounded id hold
    · exact hlast
    · omega

/-- The mutators of seeds with cycles, each with what it can make of a seed. -/
inductive Mutates (fl : Floats F) (maxCycles : ℕ) (seed : CycleAwareSeed) : CycleAwareSeed → Prop
  | operator (operator : ℕ) (draws : Draws) : Mutates fl maxCycles seed (cycleOperator maxCycles seed operator draws).1
  | random (draws : Draws) : Mutates fl maxCycles seed (mutateCycleAwareSeed maxCycles seed draws).1
  | hint {rounds desired : ℕ} {new : CycleAwareSeed} (h : ensureCycleHint maxCycles rounds seed desired = some new) :
      Mutates fl maxCycles seed new
  | guided {context : TargetContext} {ablation : SemantiSTAblation} {rounds : ℕ} {draws : Draws} {new : CycleAwareSeed}
      {changed : Bool}
      (h : (semanticMutateCycleSeed fl maxCycles seed context ablation rounds draws).1 = some (new, changed)) :
      Mutates fl maxCycles seed new
  | whole {context : TargetContext} {ablation : SemantiSTAblation} {rounds : ℕ} {draws : Draws} {new : CycleAwareSeed}
      (h : (mutateCycles fl maxCycles seed context ablation rounds draws).1 = some new) : Mutates fl maxCycles seed new

/-- The seeds there are: those that are parsed, and what mutators make of them, any number of times. -/
inductive Produced (fl : Floats F) (maxCycles : ℕ) : CycleAwareSeed → Prop
  | parsed (text : Text) : Produced fl maxCycles (parseCycleAwareSeed text)
  | mutated {seed new : CycleAwareSeed} (h : Produced fl maxCycles seed) (hmutates : Mutates fl maxCycles seed new) :
      Produced fl maxCycles new

theorem PrintableSeed.mutatedSeed (h : PrintableSeed seed) : PrintableSeed (mutatedSeed seed) := by
  unfold Mutation.mutatedSeed
  split
  · rename_i hzero
    refine ⟨h.shared, ?_, ?_, bounded_insert h.bounded (Nat.zero_le _)⟩
    · rintro record ⟨id, records, hrecords, hmem⟩
      dsimp only at hrecords
      rw [getElem?_insert_eq] at hrecords
      split at hrecords
      · obtain rfl := Option.some.inj hrecords
        rw [List.mem_singleton.1 hmem]
        exact printable_defaultRecord
      · exact h.cycles record ⟨id, records, hrecords, hmem⟩
    · have hfilled := filled_mutatedSeed h.filled
      rwa [Mutation.mutatedSeed, if_pos hzero] at hfilled
  · exact h

/-- A mutator keeps a seed printable. -/
theorem PrintableSeed.mutates (h : PrintableSeed seed) (hpos : 0 < maxCycles) (hmax : maxCycles ≤ u64Max)
    (hmutates : Mutates fl maxCycles seed new) : PrintableSeed new := by
  cases hmutates with
  | operator operator draws => exact h.step hmax (cycleOperator_step h.filled operator draws)
  | random draws => exact h.step hmax (mutateCycleAwareSeed_step h.filled draws).1
  | hint hensure => exact h.step hmax (ensureCycleHint_step h.filled hpos hensure)
  | @guided context ablation rounds draws new changed hguided =>
    exact h.step hmax (semanticMutateCycleSeed_step fl context ablation h.filled hpos draws _ hguided).1
  | @whole context ablation rounds draws new hwhole =>
    exact h.mutatedSeed.step hmax (mutateCycles_step fl context ablation h.filled hpos draws _ hwhole).1

theorem Produced.printable (h : Produced fl maxCycles seed) (hpos : 0 < maxCycles) (hmax : maxCycles ≤ u64Max) :
    PrintableSeed seed := by
  induction h with
  | parsed text => exact printableSeed_parse text
  | mutated _ hmutates ih => exact ih.mutates hpos hmax hmutates

theorem parseFbMaxCycles_le (limit : Option Text) : parseFbMaxCycles limit ≤ u64Max :=
  (Nat.min_le_right _ _).trans (by decide)

/-- **Seeds are read back from their texts**: those that are parsed, and those that mutators make of them. -/
theorem produced_roundTrips (fl : Floats F) (limit : Option Text) :
    (∀ text, RoundTrips (parseCycleAwareSeed text)) ∧
      ∀ seed, Produced fl (parseFbMaxCycles limit) seed → RoundTrips seed := by
  constructor
  · intro text
    exact (printableSeed_parse text).roundTrips
  · intro seed h
    exact (h.printable (parseFbMaxCycles_pos limit) (parseFbMaxCycles_le limit)).roundTrips

end Mutated

end SemantiST.Mutation
