import SemantiST.Corpus.Canonical
import SemantiST.Harness.Decoding

/-!
# Canonical texts in the engine

The engine's parser reads the canonical text of a testcase that the corpus's parser has accepted, unless a value is
spelled as only `int` reads it or a frame number does not fit in a `u32`.
-/

namespace SemantiST.Corpus

open Lib
open Engine (record frameName)
open Harness (isDecimalLiteral isDecimalLiteral_iff isHexLiteral_iff literal_iff asciiChar baseOf)

/-- `[+-]?[0-9]+` or `[+-]?0[xX][0-9a-fA-F]+`. -/
def isLiteral (value : Text) : Bool := isDecimalLiteral value || isHexLiteral value

/-- The types whose values are integers. -/
def integral : TypeSpec → Bool
  | .scalar type => !type.isReal
  | _ => false

/-- The frame numbers of a text fit in a `u32`, and the integers that are in effect, the last ones of their fields, are
literals. -/
structure Portable (abi : TargetAbi) (rs : List Assignment) : Prop where
  index : ∀ a ∈ rs, ∀ i, a.cycle = some i → i ≤ u32Max
  shared : ∀ p ∈ abi.sharedParams, integral p.spec = true →
    ∀ v, lastValue (rs.filterMap Assignment.toShared) p.name = some v → isLiteral v = true
  fields : ∀ i, ∀ p ∈ abi.frameActionParams, integral p.spec = true →
    ∀ v, lastValue (fieldsOf rs i) p.name = some v → isLiteral v = true

/-! ## Integers -/

section Integers

variable {u : UnicodeData} {v : Text} {w : ℤ}

theorem isSpace_of_isWhitespace {c : Char} (h : isWhitespace c = true) : isSpace c = true := by
  rw [isSpace, h, Bool.true_or]

theorem trimmed_isWhitespace (h : Trimmed isSpace v) : Trimmed isWhitespace v := by
  have hspace {c : Char} (hc : isSpace c = false) : isWhitespace c = false :=
    eq_false_of_ne_true fun hw => by
      rw [isSpace_of_isWhitespace hw] at hc
      cases hc
  exact ⟨fun c hc => hspace (h.1 c hc), fun c hc => hspace (h.2 c hc)⟩

theorem chars_of_groupedDecimal {s : Text} {n : ℕ} (h : groupedDecimal s = some n) :
    ∀ c ∈ s, c = '_' ∨ c.isDigit = true := by
  intro c hc
  by_cases hgroup : c = '_'
  · exact .inl hgroup
  · right
    unfold groupedDecimal at h
    split at h
    · cases h
    · unfold groupedNumber at h
      split at h
      · cases h
      · exact (isDigit_of_readNumber h).2 c (List.mem_filter.2 ⟨hc, decide_eq_true hgroup⟩)

/-- **What both validators read is a literal.** -/
theorem isLiteral_of_values {w' : ℤ} (htrim : Trimmed isSpace v) (hpython : integerValue u v = some w)
    (hrust : Engine.numericValue v = some w') : isLiteral v = true := by
  rw [isLiteral, Bool.or_eq_true]
  by_cases hhex : isHexLiteral v = true
  · exact .inr hhex
  · left
    rw [Harness.numericValue_eq, trim_of_trimmed (trimmed_isWhitespace htrim)] at hrust
    cases hstrip : stripHexPrefix (takeSign v).2 with
    | none =>
      rw [hstrip] at hrust
      dsimp only at hrust
      rw [Harness.parseSigned_eq] at hrust
      obtain ⟨n, hn, -⟩ := Option.bind_eq_some_iff.1 hrust
      rw [isDecimalLiteral_iff, literalMagnitude, if_neg (by decide), hn]
      rfl
    | some hex =>
      -- `int` reads no prefix here
      rw [integerValue, trim_of_trimmed htrim, if_neg hhex] at hpython
      obtain ⟨n, hn, -⟩ := Harness.groupedDecimal_of_int u htrim hpython
      obtain ⟨x, hx, hbody⟩ := stripHexPrefix_eq_some hstrip
      have hmem : x ∈ (takeSign v).2.map (asciiChar u) := by
        rw [hbody]
        refine List.mem_map.2 ⟨x, List.mem_cons_of_mem _ List.mem_cons_self, Harness.asciiChar_ascii u ?_⟩
        rcases hx with rfl | rfl <;> decide
      have hchars := chars_of_groupedDecimal hn x hmem
      exfalso
      rcases hx with rfl | rfl <;> revert hchars <;> decide

/-- **The engine reads a literal as `int` does.** -/
theorem numericValue_of_isLiteral (htrim : Trimmed isSpace v) (hpython : integerValue u v = some w)
    (hw : -2 ^ 64 ≤ w ∧ w ≤ 2 ^ 64) (hliteral : isLiteral v = true) : Engine.numericValue v = some w := by
  have hread := Harness.reading_integerValue u hpython
  rw [trim_of_trimmed htrim] at hread
  obtain ⟨n, hn⟩ := Option.isSome_iff_exists.1 (literal_iff.1 hliteral)
  have hvalue := hread.value _ n hn
  have hbound : (n : ℤ) ≤ 2 ^ 64 := by
    split at hvalue <;> omega
  have hmin : i128Min < -2 ^ 64 := by decide
  have hmax : 2 ^ 64 < i128Max := by decide
  rw [Harness.numericValue_eq, trim_of_trimmed (trimmed_isWhitespace htrim)]
  cases hstrip : stripHexPrefix (takeSign v).2 with
  | none =>
    have hbase : baseOf (takeSign v).2 = 10 := by
      rw [baseOf, hstrip]
      rfl
    rw [hbase, literalMagnitude, if_neg (by decide)] at hn
    dsimp only
    rw [Harness.parseSigned_eq, hn, Option.bind_some, ← hvalue, if_pos (by omega)]
  | some hex =>
    have hbase : baseOf (takeSign v).2 = 16 := by
      rw [baseOf, hstrip]
      rfl
    rw [hbase, literalMagnitude, if_pos rfl, hstrip, Option.bind_some] at hn
    dsimp only
    have hne : (n : ℤ) ≠ i128Min := by omega
    rw [Harness.parseSigned_eq, Harness.takeSign_of_digits hn, hn, Option.bind_some]
    simp only [Bool.false_eq_true, if_false]
    rw [if_pos (by omega), Option.map_some, negI128, if_neg hne, ← hvalue]

end Integers

/-! ## Records -/

section Records

variable {u : UnicodeData} {abi : TargetAbi} {params : List Param} {p : Param} {v canonical : Text} {a : Assignment}
  {i : ℕ}

theorem getElem?_tableOf {α : Type} {f : TypeSpec → Option α} (hp : p ∈ params)
    (hname : ∀ p ∈ params, ∀ q ∈ params, p.name = q.name → p = q) :
    (Engine.tableOf f params)[p.name]? = f p.spec := by
  cases hspec : f p.spec with
  | some a => exact Engine.tableOf_of_mem hname hp hspec
  | none =>
    cases hentry : (Engine.tableOf f params)[p.name]? with
    | none => rfl
    | some a =>
      obtain ⟨q, hq, heq, ha⟩ := Engine.mem_of_tableOf hentry
      obtain rfl := hname q hq p hp heq
      rw [hspec] at ha
      cases ha

/-- The token of a type is read as it is written. -/
theorem upper_typeToken (spec : TypeSpec) : toAsciiUppercase (trim isWhitespace spec.typeToken) = spec.typeToken := by
  cases spec with
  | scalar t => cases t <;> decide
  | string wide length => cases wide <;> rfl
  | array element count => rfl
  | pointer element => rfl
  | aggregate n size => rfl

theorem integerRange_bounds {type : ScalarType} (hreal : type.isReal = false) :
    -2 ^ 64 ≤ (integerRange type).1 ∧ (integerRange type).2 ≤ 2 ^ 64 := by
  cases type <;> revert hreal <;> decide

/-- **An integer that one validator has accepted passes the other one when it is a literal.** -/
theorem numeric_iff (htrim : Trimmed isSpace v) (hvalid : validateValue u p v = .ok ()) :
    (∀ lo hi, Engine.integerBounds p.spec = some (lo, hi) →
      ∃ number, Engine.numericValue v = some number ∧ lo ≤ number ∧ number ≤ hi) ↔
    (integral p.spec = true → isLiteral v = true) := by
  rw [validateValue] at hvalid
  cases hspec : p.spec with
  | scalar type =>
    rw [hspec] at hvalid
    dsimp only at hvalid
    cases hreal : type.isReal with
    | true => simp [Engine.integerBounds, integral, hreal]
    | false =>
      rw [hreal, if_neg Bool.false_ne_true] at hvalid
      obtain ⟨w, hw, hlow, hhigh⟩ := Harness.validateInteger_eq_ok u hvalid
      obtain ⟨hmin, hmax⟩ := integerRange_bounds hreal
      rw [Harness.integerBounds_eq hreal]
      constructor
      · intro h _
        obtain ⟨number, hnumber, -⟩ := h _ _ rfl
        exact isLiteral_of_values htrim hw hnumber
      · intro h lo hi hbounds
        obtain ⟨rfl, rfl⟩ := Prod.mk.inj (Option.some.inj hbounds.symm)
        have hliteral := h (by simp [integral, hreal])
        exact ⟨w, numericValue_of_isLiteral htrim hw ⟨by omega, by omega⟩ hliteral, hlow, hhigh⟩
  | string wide length => simp [Engine.integerBounds, integral]
  | array element count => simp [Engine.integerBounds, integral]
  | pointer element => simp [Engine.integerBounds, integral]
  | aggregate n size => simp [Engine.integerBounds, integral]

/-- The lengths of strings are checked the same way. -/
theorem string_of_validate (hvalid : validateValue u p v = .ok ()) {max : ℕ}
    (hmax : Engine.stringLength p.spec = some max) :
    (if (Engine.stringWide p.spec).getD false then utf16Length v else v.length) ≤ max := by
  rw [validateValue] at hvalid
  cases hspec : p.spec with
  | string wide length =>
    rw [hspec] at hvalid hmax
    obtain rfl := Option.some.inj hmax
    dsimp only [validateString] at hvalid
    have hle := (ite_error_eq_ok.1 hvalid).1
    exact not_lt.1 hle
  | _ =>
    rw [hspec] at hmax
    cases hmax

/-- **When the engine accepts a value that the corpus has accepted.** -/
theorem fieldRead_iff (hp : p ∈ params) (hone : ∀ q ∈ params, ∀ p ∈ params, eqIgnoreAsciiCase q.name p.name = true → q = p)
    (htrim : Trimmed isSpace v) (hvalid : validateValue u p v = .ok ()) :
    Engine.FieldRead (Engine.tableOf (fun s => some s.typeToken) params) (Engine.tableOf Engine.integerBounds params)
        (Engine.tableOf Engine.stringLength params) (Engine.tableOf Engine.stringWide params) p.name
        (toAsciiUppercase (trim isWhitespace p.spec.typeToken)) v canonical ↔
      canonical = p.name ∧ (integral p.spec = true → isLiteral v = true) := by
  have hname : ∀ p ∈ params, ∀ q ∈ params, p.name = q.name → p = q := by
    intro p hp q hq heq
    exact hone p hp q hq (by rw [heq, eqIgnoreAsciiCase_self])
  have hcanonical : Engine.canonicalName (Engine.tableOf (fun s => some s.typeToken) params) p.name = p.name :=
    Engine.canonicalName_tableOf hp (fun q hq => hone q hq p hp) (eqIgnoreAsciiCase_self p.name)
  rw [Engine.FieldRead, hcanonical, upper_typeToken]
  refine and_congr_right ?_
  rintro rfl
  rw [getElem?_tableOf hp hname, getElem?_tableOf hp hname, getElem?_tableOf hp hname, getElem?_tableOf hp hname,
    numeric_iff htrim hvalid]
  constructor
  · exact fun h => h.2.2.1
  · intro h
    refine ⟨fun _ => ?_, ?_, h, fun max hmax => string_of_validate hvalid hmax⟩
    · rw [Std.ExtTreeMap.contains_eq_isSome_getElem?, getElem?_tableOf hp hname]
      rfl
    · intro expected hexpected _
      exact (Option.some.inj hexpected).symm

end Records

section Lines

variable {u : UnicodeData} {abi : TargetAbi} {T : TestCase} {p : Param} {v : Text} {a : Assignment} {i : ℕ}

/-- The engine reads the assignment off a line. -/
def LineReads (abi : TargetAbi) (l : Text) (a : Assignment) : Prop :=
  ∃ name kind value, Engine.lineRecord l = some (name, kind, value) ∧
    Engine.Reads (Engine.schema abi) name kind value a

theorem readsLines_of_lineReads {ls : List Text} {rs : List Assignment} (h : List.Forall₂ (LineReads abi) ls rs) :
    Engine.ReadsLines (Engine.schema abi) ls rs := by
  induction h with
  | nil => exact .nil
  | cons hfirst _ ih =>
    obtain ⟨name, kind, value, hrecord, hread⟩ := hfirst
    exact .cons hrecord hread ih

/-- A line with a record is read. -/
theorem exists_lineReads {raws : List Text} {rs : List Assignment} {raw name kind value : Text}
    (h : Engine.ReadsLines (Engine.schema abi) raws rs) (hraw : raw ∈ raws)
    (hrecord : Engine.lineRecord raw = some (name, kind, value)) :
    ∃ a, Engine.Reads (Engine.schema abi) name kind value a := by
  induction h with
  | nil => cases hraw
  | skip hskip _ ih =>
    rcases List.mem_cons.1 hraw with rfl | hraw
    · have hnone : Engine.lineRecord raw = none := if_pos hskip
      rw [hnone] at hrecord
      cases hrecord
    · exact ih hraw
  | cons hfirst hread _ ih =>
    rcases List.mem_cons.1 hraw with rfl | hraw
    · rw [hrecord] at hfirst
      obtain ⟨rfl, hrest⟩ := Prod.mk.inj (Option.some.inj hfirst)
      obtain ⟨rfl, rfl⟩ := Prod.mk.inj hrest
      exact ⟨_, hread⟩
    · exact ih hraw

theorem parseUnsigned_decimal {max n : ℕ} : parseUnsigned max (decimal n) = if n ≤ max then some n else none := by
  have hplus : ∀ rest, decimal n = '+' :: rest → False := by
    intro rest heq
    have := decimal_chars (n := n) (c := '+') (by rw [heq]; exact List.mem_cons_self)
    revert this
    decide
  unfold parseUnsigned
  split
  · rename_i rest heq
    exact (hplus rest heq).elim
  · dsimp only
    rw [readNumber_decimal, Option.bind_some]

theorem splitOnce_frameName (i : ℕ) (field : Text) : splitOnce '.' (frameName i field) = some (decimal i, field) :=
  splitOnce_append fun hdot => by
    have := decimal_chars hdot
    revert this
    decide

/-- The name of a parameter is neither that of the init record nor that of a time step. -/
theorem not_reserved (hp : p ∈ abi.stateFields ++ abi.params) :
    eqIgnoreAsciiCase p.name reservedInit = false ∧ eqIgnoreAsciiCase p.name reservedDt = false := by
  have h := abi.fieldName p hp
  simp only [isFieldName, Bool.and_eq_true, Bool.not_eq_true'] at h
  exact ⟨h.1.2, h.2⟩

theorem plainValue_of_plain (h : Plain v) : Engine.PlainValue v :=
  ⟨trimmed_isWhitespace h.1, fun hmem => absurd (h.2 _ hmem) (by decide)⟩

theorem lineRecord_sharedRecord (hp : p ∈ abi.sharedParams) (hplain : Plain v) :
    Engine.lineRecord (record p.name p.spec.typeToken v) =
      some (p.name, toAsciiUppercase (trim isWhitespace p.spec.typeToken), v) := by
  have hname := Engine.plainName_of_isFieldName (abi.fieldName p (TargetAbi.mem_of_mem_sharedParams hp))
  exact Engine.lineRecord_record hname.trimmed hname.comma hname.hash (Engine.not_mem_typeToken _ (by decide))
    (trimmed_isWhitespace hplain.1)

theorem lineRecord_fieldRecord (hp : p ∈ abi.frameActionParams) (hplain : Plain v) :
    Engine.lineRecord (record (frameName i p.name) p.spec.typeToken v) =
      some (frameName i p.name, toAsciiUppercase (trim isWhitespace p.spec.typeToken), v) :=
  Engine.lineRecord_frameLine (isFieldName_isIdent (abi.fieldName p (TargetAbi.mem_of_mem_frameActionParams hp)))
    (Engine.typeToken_chars p.spec) (plainValue_of_plain hplain)

theorem lineRecord_dtRecord {dt : ℤ} (h0 : 0 ≤ dt) :
    Engine.lineRecord (record (frameName i reservedDt) "TIME".toList (intText dt)) =
      some (frameName i reservedDt, "TIME".toList, intText dt) := by
  have hplain : Plain (intText dt) := plain_of_chars fun c hc => by
    rw [intText, if_neg (by omega)] at hc
    have := decimal_chars hc
    omega
  exact Engine.lineRecord_frameLine (by decide) (Engine.chars_of_all (by decide)) (plainValue_of_plain hplain)

/-- **The engine on a shared record.** -/
theorem reads_sharedRecord_iff (hp : p ∈ abi.sharedParams) (htrim : Trimmed isSpace v)
    (hvalid : validateValue u p v = .ok ()) :
    Engine.Reads (Engine.schema abi) p.name (toAsciiUppercase (trim isWhitespace p.spec.typeToken)) v a ↔
      a = .shared p.name v ∧ (integral p.spec = true → isLiteral v = true) := by
  have hmem := TargetAbi.mem_of_mem_sharedParams hp
  obtain ⟨hinit, -⟩ := not_reserved hmem
  have hdot : '.' ∉ p.name := not_mem_isIdent (isFieldName_isIdent (abi.fieldName p hmem)) (by decide)
  have hfield {canonical : Text} := @fieldRead_iff _ _ _ _ canonical hp (fun q hq p hp => abi.oneName q
    (TargetAbi.mem_of_mem_sharedParams hq) p (TargetAbi.mem_of_mem_sharedParams hp)) htrim hvalid
  have hnosplit {index field : Text} (hs : splitOnce '.' p.name = some (index, field)) : False := by
    rw [splitOnce_eq_none_iff.2 hdot] at hs
    cases hs
  constructor
  · intro h
    cases h with
    | init hname =>
      rw [hinit] at hname
      cases hname
    | shared _ _ hread =>
      obtain ⟨rfl, hliteral⟩ := hfield.1 hread
      exact ⟨rfl, hliteral⟩
    | dt _ hsplit => exact (hnosplit hsplit).elim
    | field _ hsplit => exact (hnosplit hsplit).elim
  · rintro ⟨rfl, hliteral⟩
    exact .shared hinit hdot (hfield.2 ⟨rfl, hliteral⟩)

/-- **The engine on a record of a frame.** -/
theorem reads_fieldRecord_iff (hp : p ∈ abi.frameActionParams) (htrim : Trimmed isSpace v)
    (hvalid : validateValue u p v = .ok ()) :
    Engine.Reads (Engine.schema abi) (frameName i p.name) (toAsciiUppercase (trim isWhitespace p.spec.typeToken)) v a ↔
      a = .field i p.name v ∧ i ≤ u32Max ∧ (integral p.spec = true → isLiteral v = true) := by
  have hmem := TargetAbi.mem_of_mem_frameActionParams hp
  have hinit : eqIgnoreAsciiCase (frameName i p.name) reservedInit = false := Engine.not_init_of_dot Engine.dot_frameName
  obtain ⟨-, hdt⟩ := not_reserved hmem
  have hfield {canonical : Text} := @fieldRead_iff _ _ _ _ canonical hp (fun q hq p hp => abi.oneName q
    (TargetAbi.mem_of_mem_frameActionParams hq) p (TargetAbi.mem_of_mem_frameActionParams hp)) htrim hvalid
  constructor
  · intro h
    cases h with
    | init hname =>
      rw [hinit] at hname
      cases hname
    | shared _ hdot => exact absurd Engine.dot_frameName hdot
    | dt _ hsplit _ hdt' =>
      rw [splitOnce_frameName] at hsplit
      obtain ⟨-, rfl⟩ := Prod.mk.inj (Option.some.inj hsplit)
      rw [hdt] at hdt'
      cases hdt'
    | field _ hsplit hindex _ hread =>
      rw [splitOnce_frameName] at hsplit
      obtain ⟨rfl, rfl⟩ := Prod.mk.inj (Option.some.inj hsplit)
      rw [parseUnsigned_decimal] at hindex
      obtain ⟨hle, hindex⟩ := Option.ite_none_right_eq_some.1 hindex
      obtain rfl := Option.some.inj hindex
      obtain ⟨rfl, hliteral⟩ := hfield.1 hread
      exact ⟨rfl, hle, hliteral⟩
  · rintro ⟨rfl, hle, hliteral⟩
    exact .field hinit (splitOnce_frameName i p.name) (by rw [parseUnsigned_decimal, if_pos hle]) hdt
      (hfield.2 ⟨rfl, hliteral⟩)

theorem reads_dtRecord {dt : ℤ} (hi : i ≤ u32Max) (h0 : 0 ≤ dt) (h64 : dt ≤ u64Max) :
    Engine.Reads (Engine.schema abi) (frameName i reservedDt) "TIME".toList (intText dt) (.dt i dt) := by
  obtain ⟨n, rfl⟩ := Int.eq_ofNat_of_zero_le h0
  have hvalue : parseUnsigned u64Max (intText (n : ℤ)) = some n := by
    rw [intText, if_neg (by omega), Int.natAbs_natCast, parseUnsigned_decimal, if_pos (by omega)]
  exact .dt (Engine.not_init_of_dot Engine.dot_frameName) (splitOnce_frameName i reservedDt)
    (by rw [parseUnsigned_decimal, if_pos hi]) (eqIgnoreAsciiCase_self _) (.inr rfl) hvalue

end Lines

/-! ## The order of the frames -/

section Order

variable {abi : TargetAbi} {rs as : List Assignment} {st : Engine.ParseState} {n k : ℕ}

theorem frameCount_append (hcount : FrameCount rs k) (hall : ∀ a ∈ as, a.cycle = some k) (hne : as ≠ []) :
    FrameCount (rs ++ as) (k + 1) := by
  intro i
  have hiff := hcount i
  constructor
  · rintro ⟨a, ha, hi⟩
    rcases List.mem_append.1 ha with ha | ha
    · have := hiff.1 ⟨a, ha, hi⟩
      omega
    · rw [hall a ha] at hi
      have := Option.some.inj hi
      omega
  · intro hi
    by_cases hk : i < k
    · obtain ⟨a, ha, hcycle⟩ := hiff.2 hk
      exact ⟨a, List.mem_append_left _ ha, hcycle⟩
    · obtain ⟨a, ha⟩ := List.exists_mem_of_ne_nil _ hne
      exact ⟨a, List.mem_append_right _ ha, by rw [hall a ha, show i = k by omega]⟩

theorem ordered_append (hfirst : Engine.Ordered (Engine.schema abi) st rs)
    (hrest : Engine.Ordered (Engine.schema abi) (rs.foldl (Engine.assign (Engine.schema abi)) st) as) :
    Engine.Ordered (Engine.schema abi) st (rs ++ as) := by
  induction hfirst with
  | nil st => exact hrest
  | cons ha _ ih => exact .cons ha (ih hrest)

/-- Assignments to no frame are in order. -/
theorem ordered_of_cycle_none (h : ∀ a ∈ as, a.cycle = none) : Engine.Ordered (Engine.schema abi) st as := by
  induction as generalizing st with
  | nil => exact .nil st
  | cons a as ih =>
    rw [List.forall_mem_cons] at h
    exact .cons (Engine.inOrder_of_cycle_none h.1) (ih h.2)

/-- Assignments to the next frame are in order. -/
theorem ordered_of_cycle (hstored : Engine.Stored rs n st) (hcount : FrameCount rs n) (hn : n = k ∨ n = k + 1)
    (hall : ∀ a ∈ as, a.cycle = some k) (hdt : ∀ a ∈ as, Engine.Assignment.NonnegDt a) :
    Engine.Ordered (Engine.schema abi) st as := by
  induction as generalizing rs n st with
  | nil => exact .nil st
  | cons a as ih =>
    rw [List.forall_mem_cons] at hall hdt
    have hin : Engine.InOrder st a := hstored.inOrder_iff.2 fun cycle hcycle => by
      have := Option.some.inj (hall.1.symm.trans hcycle)
      omega
    obtain ⟨hstored', hcount'⟩ := @Engine.Stored.assign (Engine.schema abi) _ _ _ _ hstored hcount hin hdt.1
    refine .cons hin (ih hstored' hcount' ?_ hall.2 hdt.2)
    have hmax : Engine.countAfter n a = max n (k + 1) := by
      rw [Engine.countAfter, hall.1]
      rfl
    omega

/-- **The frames of a testcase are in order.** -/
theorem ordered_frames {frames : List Frame} (hstored : Engine.Stored rs k st) (hcount : FrameCount rs k)
    (hindex : frames.map Frame.index = List.range' k frames.length)
    (hcounted : ∀ f ∈ frames, frameAssignments abi true f ≠ [])
    (hdt : ∀ a ∈ frames.flatMap (frameAssignments abi true), Engine.Assignment.NonnegDt a) :
    Engine.Ordered (Engine.schema abi) st (frames.flatMap (frameAssignments abi true)) := by
  induction frames generalizing rs k st with
  | nil => exact .nil st
  | cons f frames ih =>
    rw [List.length_cons, List.range'_succ, List.map_cons] at hindex
    obtain ⟨rfl, hindex⟩ := List.cons.inj hindex
    rw [List.flatMap_cons] at hdt ⊢
    rw [List.forall_mem_cons] at hcounted
    have hall : ∀ a ∈ frameAssignments abi true f, a.cycle = some f.index := fun a => frameAssignments_cycle
    have hdt' := List.forall_mem_append.1 hdt
    have hfirst : Engine.Ordered (Engine.schema abi) st (frameAssignments abi true f) :=
      ordered_of_cycle hstored hcount (.inl rfl) hall hdt'.1
    obtain ⟨m, hstored', hcount'⟩ := hstored.foldl hcount hfirst hdt'.1
    obtain rfl := hcount'.unique (frameCount_append hcount hall hcounted.1)
    exact ordered_append hfirst (ih hstored' hcount' hindex hcounted.2 hdt'.2)

end Order

/-! ## Accepted texts -/

section Accepted

variable {u : UnicodeData} {abi : TargetAbi} {text : Text} {T : TestCase} {scanPeriodNs : ℤ} {dtRangeNs : Option (ℤ × ℤ)}
  {rs : List Assignment} {f : Frame} {n i : ℕ}

/-- What the engine asks of the parsed testcase. -/
structure Readable (abi : TargetAbi) (T : TestCase) : Prop where
  index : ∀ f ∈ T.frames, f.index ≤ u32Max
  shared : ∀ p ∈ abi.sharedParams, integral p.spec = true → ∀ v, T.shared[p.name]? = some v → isLiteral v = true
  fields : ∀ f ∈ T.frames, ∀ p ∈ abi.frameActionParams, integral p.spec = true →
    ∀ v, f.values[p.name]? = some v → isLiteral v = true

theorem getElem?_sharedOf (rs : List Assignment) (k : Text) :
    (sharedOf rs)[k]? = lastValue (rs.filterMap Assignment.toShared) k := by
  rw [sharedOf, getElem?_insertAll]
  simp

/-- An inherited integer is a literal, too. -/
theorem isLiteral_inherited (hportable : Portable abi rs) (hsound : ∀ a ∈ rs, Sound abi a) {p : Param}
    (hp : p ∈ abi.frameActionParams) (hintegral : integral p.spec = true) {v : Text}
    (hv : (inheritedAt (frameDefaults abi) rs i)[p.name]? = some v) : isLiteral v = true := by
  have hp' := TargetAbi.mem_of_mem_frameActionParams hp
  induction i generalizing v with
  | zero =>
    have hdefault : (frameDefaults abi)[p.name]? = some p.spec.defaultFor :=
      Engine.tableOf_of_mem (fun p hp q hq => param_unique (TargetAbi.mem_of_mem_frameActionParams hp)
        (TargetAbi.mem_of_mem_frameActionParams hq)) hp rfl
    rw [inheritedAt, getElem?_seeded, hdefault, Option.map_some] at hv
    obtain rfl := Option.some.inj hv
    cases hshared : (sharedOf rs)[p.name]? with
    | none =>
      cases hspec : p.spec with
      | scalar type =>
        rw [hspec, integral, Bool.not_eq_true'] at hintegral
        rw [Option.getD_none, TypeSpec.defaultFor, hintegral]
        decide
      | _ =>
        rw [hspec] at hintegral
        cases hintegral
    | some v =>
      have hmem : p.name ∈ sharedOf rs := by
        rw [Std.ExtTreeMap.mem_iff_isSome_getElem?, hshared]
        rfl
      obtain ⟨q, hq, heq⟩ := List.mem_map.1 (mem_names_of_sharedOf hsound hmem)
      obtain rfl := param_unique (TargetAbi.mem_of_mem_sharedParams hq) hp' heq
      exact hportable.shared q hq hintegral v (by rw [← getElem?_sharedOf, hshared])
  | succ i ih =>
    rw [inheritedAt, getElem?_insertAll] at hv
    cases hlast : lastValue (fieldsOf rs i) p.name with
    | none =>
      rw [hlast, Option.none_or] at hv
      exact ih hv
    | some w =>
      rw [hlast] at hv
      obtain rfl : w = v := Option.some.inj hv
      exact hportable.fields i p hp hintegral w hlast

/-- **The records of a text are portable when its testcase is readable.** -/
theorem portable_iff (hsound : ∀ a ∈ rs, Sound abi a) (hparsed : Parsed abi scanPeriodNs dtRangeNs rs n T) :
    Portable abi rs ↔ Readable abi T := by
  obtain ⟨hindex, hvalues⟩ := frames_of_parsed hparsed
  have frame_of_cycle {a : Assignment} {i : ℕ} (ha : a ∈ rs) (hi : a.cycle = some i) : ∃ f ∈ T.frames, f.index = i := by
    have hlt := (hparsed.count i).1 ⟨a, ha, hi⟩
    have hmem : i ∈ T.frames.map Frame.index := by
      rw [hindex, List.mem_range, if_neg (by omega)]
      exact hlt
    exact List.mem_map.1 hmem
  constructor
  · intro h
    refine ⟨fun f hf => ?_, fun p hp hintegral v hv => ?_, fun f hf p hp hintegral v hv => ?_⟩
    · have hmem : f.index ∈ T.frames.map Frame.index := List.mem_map_of_mem hf
      rw [hindex, List.mem_range] at hmem
      by_cases hn : n = 0
      · rw [if_pos hn] at hmem
        omega
      · rw [if_neg hn] at hmem
        obtain ⟨a, ha, hi⟩ := (hparsed.count f.index).2 hmem
        exact h.index a ha _ hi
    · rw [hparsed.shared, getElem?_sharedOf] at hv
      exact h.shared p hp hintegral v hv
    · rw [hvalues f hf] at hv
      exact isLiteral_inherited (i := f.index + 1) h hsound hp hintegral hv
  · intro h
    refine ⟨fun a ha i hi => ?_, fun p hp hintegral v hv => ?_, fun i p hp hintegral v hv => ?_⟩
    · obtain ⟨f, hf, rfl⟩ := frame_of_cycle ha hi
      exact h.index f hf
    · apply h.shared p hp hintegral
      rw [hparsed.shared, getElem?_sharedOf, hv]
    · obtain ⟨a, ha, hfield⟩ := List.mem_filterMap.1 (mem_of_lastValue hv)
      have hcycle : a.cycle = some i := by
        cases a with
        | field j name value =>
          rw [Assignment.toField] at hfield
          obtain ⟨rfl, -⟩ := Option.ite_none_right_eq_some.1 hfield
          rfl
        | _ => cases hfield
      obtain ⟨f, hf, rfl⟩ := frame_of_cycle ha hcycle
      apply h.fields f hf p hp hintegral
      rw [hvalues f hf, valuesAt, getElem?_insertAll, hv, Option.some_or]

/-- The lines of a readable testcase are read. -/
theorem lineReads_of_readable (hT : Legible abi true T) (hvalid : validate u T abi = .ok ()) (h : Readable abi T) :
    List.Forall₂ (LineReads abi) (T.sharedLines ++ T.frames.flatMap (T.frameLines true)) (spelled abi true T) := by
  apply List.rel_append
  · rw [sharedLines_eq hT]
    apply forall₂_forValues
    intro p hp v hv
    have hplain := hT.plainShared _ _ hv
    have hident := isFieldName_isIdent (abi.fieldName p (TargetAbi.mem_of_mem_sharedParams hp))
    refine ⟨_, _, _, lineRecord_sharedRecord hp hplain, ?_⟩
    exact (reads_sharedRecord_iff hp hplain.1 (sharedValid_of_validate hvalid p hp v hv)).2
      ⟨rfl, fun hintegral => h.shared p hp hintegral v hv⟩
  · apply forall₂_flatMap
    intro f hf
    rw [frameLines_eq hT hf]
    apply List.rel_append
    · apply forall₂_forValues
      intro p hp v hv
      have hplain := hT.plainFields f hf _ _ hv
      refine ⟨_, _, _, lineRecord_fieldRecord hp hplain, ?_⟩
      exact (reads_fieldRecord_iff hp hplain.1 (fieldsValid_of_validate hvalid hf p hp v hv)).2
        ⟨rfl, h.index f hf, fun hintegral => h.fields f hf p hp hintegral v hv⟩
    · rw [if_pos rfl, if_pos rfl]
      rcases hdt : f.dtNs with _ | dt
      · exact List.Forall₂.nil
      · obtain ⟨h0, h64⟩ := hT.dt rfl f hf dt hdt
        refine List.Forall₂.cons ⟨_, _, _, lineRecord_dtRecord h0, ?_⟩ List.Forall₂.nil
        exact reads_dtRecord (h.index f hf) h0 h64

theorem lines_canonical (hT : Legible abi true T) :
    lines (T.canonical true) = T.sharedLines ++ T.frames.flatMap (T.frameLines true) := by
  rw [canonical_eq hT]
  apply lines_unlines
  intro l hl
  have hbreak := forall_of_lineSpells (lines_spell hT (u := asciiData)) l hl
  refine ⟨fun hmem => absurd (hbreak _ hmem) (by decide), fun hlast => ?_⟩
  exact absurd (hbreak _ (List.mem_of_mem_getLast? hlast)) (by decide)

/-- What the engine makes of a frame. -/
def engineFrame (f : Frame) : Engine.Frame := ⟨f.index, f.values, f.dtNs.map Int.toNat⟩

/-- **A readable testcase comes through the engine's parser.** -/
theorem accepted_of_readable (hT : Legible abi true T) (hvalid : validate u T abi = .ok ())
    (hindex : T.frames.map Frame.index = List.range n) (hparams : abi.frameActionParams ≠ []) (h : Readable abi T) :
    ∃ case, Engine.parseTestcase (T.canonical true) (Engine.schema abi) = .ok case ∧ Agrees T case := by
  have complete : ∀ f ∈ T.frames, ∀ p ∈ abi.frameActionParams, p.name ∈ f.values :=
    fun f hf => (frame_of_validate hvalid hf).1
  have hcounted : ∀ f ∈ T.frames, frameAssignments abi true f ≠ [] :=
    fun f hf => counted_of_complete hparams (complete f hf)
  have hread := readsLines_of_lineReads (lineReads_of_readable hT hvalid h)
  have hnonneg := hread.nonnegDt
  rw [spelled, List.forall_mem_append] at hnonneg
  have hcount : FrameCount (spelled abi true T) n := frameCount_spelled hindex hcounted
  have hordered : Engine.Ordered (Engine.schema abi) (Engine.initState (Engine.schema abi)) (spelled abi true T) := by
    have hshared : ∀ a ∈ sharedAssignments abi T.shared, a.cycle = none := fun a => sharedAssignments_cycle
    have hfirst : Engine.Ordered (Engine.schema abi) (Engine.initState (Engine.schema abi))
        (sharedAssignments abi T.shared) := ordered_of_cycle_none hshared
    have hnone : FrameCount (sharedAssignments abi T.shared) 0 := by
      intro i
      refine ⟨?_, fun hi => absurd hi (Nat.not_lt_zero i)⟩
      rintro ⟨a, ha, hi⟩
      rw [hshared a ha] at hi
      cases hi
    obtain ⟨m, hstored, hcount'⟩ := (Engine.stored_initState (Engine.schema abi)).foldl
      (fun i => by simp) hfirst hnonneg.1
    rw [List.nil_append] at hstored hcount'
    obtain rfl := hcount'.unique hnone
    refine ordered_append hfirst (ordered_frames hstored hcount' ?_ hcounted hnonneg.2)
    rw [hindex, List.range_eq_range', ← List.length_map (f := Frame.index), hindex, List.length_range]
  have hdata {f : Frame} (hf : f ∈ T.frames) : (engineFrame f).data = f.data := by
    have hdt : (f.dtNs.map Int.toNat).map Int.ofNat = f.dtNs := by
      rcases hsome : f.dtNs with _ | dt
      · rfl
      · obtain ⟨h0, -⟩ := hT.dt rfl f hf dt hsome
        exact congrArg some (Int.toNat_of_nonneg h0)
    rw [Engine.Frame.data, engineFrame, hdt]
    rfl
  have hframes : (T.frames.map engineFrame).map Engine.Frame.data = T.frames.map Frame.data := by
    rw [List.map_map]
    exact List.map_congr_left fun f hf => hdata hf
  refine ⟨⟨"cold".toList, T.shared, T.frames.map engineFrame⟩, ?_, hT.initProfile, rfl, hframes.symm⟩
  refine Engine.parseTestcase_iff.2 ⟨_, n, by rwa [lines_canonical hT], hordered, hcount, rfl,
    (sharedOf_spelled hT.sharedNames).symm, ?_⟩
  have hnodup := nodup_of_index hindex
  rw [hframes]
  apply map_data_eq hindex
  intro f hf
  have hvalues : valuesAt (frameDefaults abi) (spelled abi true T) f.index = f.values :=
    valuesAt_spelled hnodup hf (complete f hf) (hT.fieldNames f hf)
  have hdt : dtOf (spelled abi true T) f.index = if true then f.dtNs else none := dtOf_spelled hnodup hf
  rw [frameAt, hdt, if_pos rfl]
  exact congrArg (fun values => (f.index, values, f.dtNs)) hvalues

/-- **A testcase that comes through the engine's parser is readable.** -/
theorem readable_of_accepted {case : Engine.TestCase} (hT : Legible abi true T) (hvalid : validate u T abi = .ok ())
    (hparams : abi.frameActionParams ≠ [])
    (h : Engine.parseTestcase (T.canonical true) (Engine.schema abi) = .ok case) : Readable abi T := by
  obtain ⟨rs, n, hread, -⟩ := Engine.parseTestcase_iff.1 h
  rw [lines_canonical hT] at hread
  have shared {p : Param} (hp : p ∈ abi.sharedParams) {v : Text} (hv : T.shared[p.name]? = some v) :
      integral p.spec = true → isLiteral v = true := by
    have hplain := hT.plainShared _ _ hv
    have hline : record p.name p.spec.typeToken v ∈ T.sharedLines ++ T.frames.flatMap (T.frameLines true) := by
      rw [sharedLines_eq hT]
      exact List.mem_append_left _ (List.mem_filterMap.2 ⟨p, hp, by rw [hv]; rfl⟩)
    obtain ⟨a, ha⟩ := exists_lineReads hread hline (lineRecord_sharedRecord hp hplain)
    exact ((reads_sharedRecord_iff hp hplain.1 (sharedValid_of_validate hvalid p hp v hv)).1 ha).2
  have field {f : Frame} (hf : f ∈ T.frames) {p : Param} (hp : p ∈ abi.frameActionParams) {v : Text}
      (hv : f.values[p.name]? = some v) : f.index ≤ u32Max ∧ (integral p.spec = true → isLiteral v = true) := by
    have hplain := hT.plainFields f hf _ _ hv
    have hline : record (frameName f.index p.name) p.spec.typeToken v ∈
        T.sharedLines ++ T.frames.flatMap (T.frameLines true) := by
      refine List.mem_append_right _ (List.mem_flatMap.2 ⟨f, hf, ?_⟩)
      rw [frameLines_eq hT hf]
      exact List.mem_append_left _ (List.mem_filterMap.2 ⟨p, hp, by rw [hv]; rfl⟩)
    obtain ⟨a, ha⟩ := exists_lineReads hread hline (lineRecord_fieldRecord hp hplain)
    exact ((reads_fieldRecord_iff hp hplain.1 (fieldsValid_of_validate hvalid hf p hp v hv)).1 ha).2
  refine ⟨fun f hf => ?_, fun p hp hintegral v hv => shared hp hv hintegral,
    fun f hf p hp hintegral v hv => (field hf hp hv).2 hintegral⟩
  obtain ⟨p, hp⟩ := List.exists_mem_of_ne_nil _ hparams
  have hmem := (frame_of_validate hvalid hf).1 p hp
  obtain ⟨v, hv⟩ := Option.isSome_iff_exists.1 (Std.ExtTreeMap.mem_iff_isSome_getElem?.1 hmem)
  exact (field hf hp hv).1

/-- **The engine reads the canonical text of an accepted testcase exactly when the records of its text are
portable.** -/
theorem canonical_accepted_iff (h : parseTestcase u text abi scanPeriodNs dtRangeNs = .ok T)
    (hparams : abi.frameActionParams ≠ []) :
    (∃ case, Engine.parseTestcase (T.canonical true) (Engine.schema abi) = .ok case ∧ Agrees T case ∧
      T.frameHashes = case.frameHashes.map UInt64.toNat ∧ T.prefixHashes = case.prefixHashes.map UInt64.toNat) ↔
    Portable abi (assignments u abi (splitlines text)) := by
  have hT := legible_of_parse h
  obtain ⟨hall, hvalid, n, hparsed⟩ := parseTestcase_eq_ok h
  obtain ⟨hindex, -⟩ := frames_of_parsed hparsed
  rw [portable_iff (fun a ha => sound_of_mem_assignments ha) hparsed]
  constructor
  · rintro ⟨case, hcase, -⟩
    exact readable_of_accepted hT hvalid hparams hcase
  · intro hreadable
    obtain ⟨case, hcase, hagrees⟩ := accepted_of_readable hT hvalid hindex hparams hreadable
    exact ⟨case, hcase, hagrees, hagrees.hashes⟩

end Accepted

theorem canonical_accepted_oneFrame : ∃ T case, parseTestcase asciiData oneFrame oneInput 0 none = .ok T ∧
    Engine.parseTestcase (T.canonical true) (Engine.schema oneInput) = .ok case ∧ Agrees T case := by
  have hok : (parseTestcase asciiData oneFrame oneInput 0 none).toBool = true := by decide +kernel
  cases hT : parseTestcase asciiData oneFrame oneInput 0 none with
  | error e =>
    rw [hT] at hok
    cases hok
  | ok T =>
    have hrs : assignments asciiData oneInput (splitlines oneFrame) = [.field 0 "X".toList "1".toList] := by decide +kernel
    have hportable : Portable oneInput (assignments asciiData oneInput (splitlines oneFrame)) := by
      rw [hrs]
      refine ⟨fun a ha i hi => ?_, fun p _ _ v hv => ?_, fun i p _ _ v hv => ?_⟩
      · obtain rfl := List.mem_singleton.1 ha
        obtain rfl := Option.some.inj hi
        decide
      · cases hv
      · obtain ⟨a, ha, hfield⟩ := List.mem_filterMap.1 (mem_of_lastValue hv)
        obtain rfl := List.mem_singleton.1 ha
        obtain ⟨-, heq⟩ := Option.ite_none_right_eq_some.1 hfield
        obtain ⟨-, rfl⟩ := Prod.mk.inj (Option.some.inj heq)
        decide
    obtain ⟨case, hcase, hagrees, -⟩ := (canonical_accepted_iff hT (by decide)).2 hportable
    exact ⟨T, case, rfl, hcase, hagrees⟩

/-- `int` reads the underscore, the engine does not. -/
theorem canonical_refused : ∃ T, parseTestcase asciiData "0.X,INT,1_0\n".toList oneInput 0 none = .ok T ∧
    oneInput.frameActionParams ≠ [] ∧
    ∀ case, Engine.parseTestcase (T.canonical true) (Engine.schema oneInput) ≠ .ok case := by
  have hok : (parseTestcase asciiData "0.X,INT,1_0\n".toList oneInput 0 none).toBool = true := by decide +kernel
  have hrust : ((parseTestcase asciiData "0.X,INT,1_0\n".toList oneInput 0 none).toOption.map fun T =>
      (Engine.parseTestcase (T.canonical true) (Engine.schema oneInput)).toBool) = some false := by decide +kernel
  cases hT : parseTestcase asciiData "0.X,INT,1_0\n".toList oneInput 0 none with
  | error e =>
    rw [hT] at hok
    cases hok
  | ok T =>
    refine ⟨T, rfl, by decide, fun case hcase => ?_⟩
    rw [hT, Except.toOption, Option.map_some, hcase] at hrust
    cases hrust

end SemantiST.Corpus
