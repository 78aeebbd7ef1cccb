import Mathlib.Data.PNat.Basic
import SemantiST.Lib.Python

/-!
# Types of LLVM IR

`parse_type` (`compiler/harness/llvm_ir.py`), and the text of a type as LLVM prints it (`parseType_render`).
-/

namespace SemantiST.Harness

open Lib

/-! ## Reading a type -/

inductive LLVMType where
  | int (bits : ℕ)
  | float (bits : ℕ)
  | ptr
  | array (count : ℕ) (element : LLVMType)
  | vector (count : ℕ) (element : LLVMType)
  | struct (fields : List LLVMType)
  | named (name : Text)
  | void

def opens (c : Char) : Bool := c == '[' || c == '{' || c == '<' || c == '('

def closes (c : Char) : Bool := c == ']' || c == '}' || c == '>' || c == ')'

/-- The loop of `split_fields`, at a depth of nesting and with a field read in part. -/
def splitFieldsFrom : ℤ → Text → Text → List Text
  | _, current, [] => if trim isSpace current = [] then [] else [trim isSpace current]
  | depth, current, c :: body =>
    let depth := if opens c then depth + 1 else if closes c then depth - 1 else depth
    if c = ',' ∧ depth = 0 then trim isSpace current :: splitFieldsFrom depth [] body
    else splitFieldsFrom depth (current ++ [c]) body

def splitFields (body : Text) : List Text := splitFieldsFrom 0 [] body

/-- `_INT_RE`, with the digits of ASCII. -/
def intBits : Text → Option ℕ
  | 'i' :: digits => readNumber decDigit 10 digits
  | _ => none

/-- `_FLOAT_RE`. -/
def floatBits (text : Text) : Option ℕ :=
  if text = "half".toList then some 16
  else if text = "float".toList then some 32
  else if text = "double".toList then some 64
  else if text = "fp128".toList then some 128
  else if text = "x86_fp80".toList then some 80
  else none

/-- The inside of an array or a vector: `^(\d+)\s*x\s*(.*)$`. -/
def counted (inner : Text) : Option (ℕ × Text) :=
  match (inner.dropWhile Char.isDigit).dropWhile isSpace with
  | 'x' :: element => (readNumber decDigit 10 (inner.takeWhile Char.isDigit)).map fun count =>
      (count, element.dropWhile isSpace)
  | _ => none

/-- The inside of brackets, when a text that began with one ends with the other. -/
def bracketed (close : Char) (rest : Text) : Option Text :=
  if rest.getLast? = some close then some rest.dropLast else none

/-- What `parse_type` makes of a text that is no word. -/
def parseAggregate (parseType : Text → Option LLVMType) (text : Text) : Option LLVMType :=
  match text with
  | '%' :: _ => some (.named text)
  | '[' :: rest => ((bracketed ']' rest).bind counted).bind fun p => (parseType p.2).map (.array p.1)
  | '<' :: rest => ((bracketed '>' rest).bind counted).bind fun p => (parseType p.2).map (.vector p.1)
  | '{' :: rest => (bracketed '}' rest).bind fun inner => ((splitFields inner).mapM parseType).map .struct
  | _ => none

/-- `parse_type`, with fuel for its recursion; `none` is an error. -/
def parseType : ℕ → Text → Option LLVMType
  | 0, _ => none
  | n + 1, text =>
    let text := trim isSpace text
    if text = "ptr".toList then some .ptr
    else if text = "void".toList then some .void
    else
      match intBits text with
      | some bits => some (.int bits)
      | none =>
        match floatBits text with
        | some bits => some (.float bits)
        | none => parseAggregate (parseType n) text

/-! ## Types as LLVM has them -/

/-- A character of a name: `[A-Za-z0-9_.$-]`. -/
def isTypeNameChar (c : Char) : Bool := c.isAlphanum || c == '_' || c == '.' || c == '$' || c == '-'

/-- The name of a type, as a definition can have it. -/
structure TypeName where
  text : Text
  ne_nil : text ≠ []
  chars : ∀ c ∈ text, isTypeNameChar c = true
deriving DecidableEq

/-- What a name is referred to by. -/
def TypeName.reference (name : TypeName) : Text := '%' :: name.text

/-- A type of the IR. -/
inductive IrType where
  | int (bits : ℕ+)
  | float
  | double
  | ptr
  | array (count : ℕ) (element : IrType)
  | struct (packed : Bool) (fields : List IrType)
  | named (name : TypeName)

namespace IrType

mutual

/-- The text of a type. -/
def render : IrType → Text
  | .int bits => 'i' :: decimal bits
  | .float => "float".toList
  | .double => "double".toList
  | .ptr => "ptr".toList
  | .array count element => '[' :: (decimal count ++ (" x ".toList ++ (render element ++ [']'])))
  | .struct packed fields =>
    if packed then '<' :: '{' :: (renderFields fields ++ ['}', '>']) else '{' :: (renderFields fields ++ ['}'])
  | .named name => name.reference

def renderFields : List IrType → Text
  | [] => []
  | field :: fields =>
    ' ' :: (render field ++ if fields.isEmpty then [' '] else ',' :: renderFields fields)

end

mutual

/-- What `parse_type` makes of a type; a packed structure is an error. -/
def read : IrType → Option LLVMType
  | .int bits => some (.int bits)
  | .float => some (.float 32)
  | .double => some (.float 64)
  | .ptr => some .ptr
  | .array count element => (read element).map (.array count)
  | .struct packed fields => if packed then none else (readFields fields).map .struct
  | .named name => some (.named name.reference)

def readFields : List IrType → Option (List LLVMType)
  | [] => some []
  | field :: fields => do return (← read field) :: (← readFields fields)

end

end IrType

/-! ## Reading what is printed -/

section RoundTrip

variable {text rest current inner : Text} {depth : ℤ} {n fuel : ℕ} {c : Char}

/-- A character that `split_fields` only copies. -/
def isPlainChar (c : Char) : Bool := !opens c && !closes c && c != ','

theorem splitFieldsFrom_plain (h : ∀ c ∈ text, isPlainChar c = true) :
    splitFieldsFrom depth current (text ++ rest) = splitFieldsFrom depth (current ++ text) rest := by
  induction text generalizing current with
  | nil => rw [List.nil_append, List.append_nil]
  | cons c text ih =>
    have hc := h c List.mem_cons_self
    simp only [isPlainChar, Bool.and_eq_true, Bool.not_eq_true', bne_iff_ne] at hc
    obtain ⟨⟨hopen, hclose⟩, hcomma⟩ := hc
    rw [List.cons_append, splitFieldsFrom, hopen, hclose, if_neg Bool.false_ne_true, if_neg Bool.false_ne_true,
      if_neg fun h => hcomma h.1, ih fun d hd => h d (List.mem_cons_of_mem _ hd), List.append_assoc]
    rfl

theorem splitFieldsFrom_open (h : opens c = true) (hcomma : c ≠ ',') :
    splitFieldsFrom depth current (c :: rest) = splitFieldsFrom (depth + 1) (current ++ [c]) rest := by
  rw [splitFieldsFrom, if_pos h, if_neg fun hc => hcomma hc.1]

theorem splitFieldsFrom_close (h : closes c = true) (hopen : opens c = false) (hcomma : c ≠ ',') :
    splitFieldsFrom depth current (c :: rest) = splitFieldsFrom (depth - 1) (current ++ [c]) rest := by
  rw [splitFieldsFrom, hopen, if_neg Bool.false_ne_true, if_pos h, if_neg fun hc => hcomma hc.1]

theorem splitFieldsFrom_inner_comma (h : depth ≠ 0) :
    splitFieldsFrom depth current (',' :: rest) = splitFieldsFrom depth (current ++ [',']) rest := by
  have hopen : opens ',' = false := rfl
  have hclose : closes ',' = false := rfl
  rw [splitFieldsFrom, hopen, hclose, if_neg Bool.false_ne_true, if_neg Bool.false_ne_true, if_neg fun hc => h hc.2]

theorem isPlainChar_of_isDigit (h : c.isDigit = true) : isPlainChar c = true := by
  have hrange := isDigit_range h
  have hne (d : Char) (hd : ¬(48 ≤ d.toNat ∧ d.toNat ≤ 57)) : c ≠ d := by
    rintro rfl
    exact hd hrange
  simp [isPlainChar, opens, closes, hne]

theorem isPlainChar_of_isTypeNameChar (h : isTypeNameChar c = true) : isPlainChar c = true := by
  have hne (d : Char) (hd : isTypeNameChar d = false) : c ≠ d := by
    rintro rfl
    rw [h] at hd
    cases hd
  have hbrackets : ∀ d ∈ "[{<(]}>),".toList, c ≠ d := fun d hd => hne d (by revert d; simp; decide)
  simp at hbrackets
  simp [isPlainChar, opens, closes, hbrackets]

namespace IrType

/-- `split_fields` copies the fields of a structure, as it copies the text of each. -/
theorem splitFieldsFrom_renderFields (fields : List IrType)
    (hfields : ∀ field ∈ fields, ∀ (depth : ℤ) (current rest : Text), 0 ≤ depth →
      splitFieldsFrom depth current (render field ++ rest) = splitFieldsFrom depth (current ++ render field) rest)
    {depth : ℤ} {current rest : Text} (hdepth : 1 ≤ depth) :
    splitFieldsFrom depth current (renderFields fields ++ rest) =
      splitFieldsFrom depth (current ++ renderFields fields) rest := by
  induction fields generalizing current with
  | nil => rw [renderFields, List.nil_append, List.append_nil]
  | cons field fields ih =>
    have hblank : ∀ c ∈ [' '], isPlainChar c = true := List.all_eq_true.1 rfl
    have hfield := hfields field List.mem_cons_self depth (current ++ [' '])
    cases fields with
    | nil =>
      have htext : renderFields [field] ++ rest = [' '] ++ (render field ++ ([' '] ++ rest)) := by
        simp [renderFields]
      rw [htext, splitFieldsFrom_plain hblank, hfield _ (by omega), splitFieldsFrom_plain hblank]
      simp [renderFields]
    | cons second fields =>
      have htext : renderFields (field :: second :: fields) ++ rest =
          [' '] ++ (render field ++ ',' :: (renderFields (second :: fields) ++ rest)) := by
        simp [renderFields]
      rw [htext, splitFieldsFrom_plain hblank, hfield _ (by omega), splitFieldsFrom_inner_comma (by omega),
        ih fun other hother => hfields other (List.mem_cons_of_mem _ hother)]
      simp [renderFields]

/-- `split_fields` copies the text of a type. -/
theorem splitFieldsFrom_render (t : IrType) {depth : ℤ} {current rest : Text} (hdepth : 0 ≤ depth) :
    splitFieldsFrom depth current (render t ++ rest) = splitFieldsFrom depth (current ++ render t) rest := by
  match t with
  | .int bits =>
    apply splitFieldsFrom_plain
    intro c hc
    rcases List.mem_cons.1 hc with rfl | hc
    · decide
    · exact isPlainChar_of_isDigit (isDigit_of_mem_decimal hc)
  | .float => exact splitFieldsFrom_plain (List.all_eq_true.1 rfl)
  | .double => exact splitFieldsFrom_plain (List.all_eq_true.1 rfl)
  | .ptr => exact splitFieldsFrom_plain (List.all_eq_true.1 rfl)
  | .array count element =>
    have hcount : ∀ c ∈ decimal count, isPlainChar c = true := fun c hc =>
      isPlainChar_of_isDigit (isDigit_of_mem_decimal hc)
    have hword : ∀ c ∈ " x ".toList, isPlainChar c = true := List.all_eq_true.1 rfl
    have htext : render (.array count element) ++ rest =
        '[' :: (decimal count ++ (" x ".toList ++ (render element ++ ']' :: rest))) := by
      simp [render]
    rw [htext, splitFieldsFrom_open (by decide) (by decide), splitFieldsFrom_plain hcount,
      splitFieldsFrom_plain hword, splitFieldsFrom_render element (by omega),
      splitFieldsFrom_close (by decide) (by decide) (by decide), Int.add_sub_cancel]
    simp [render]
  | .struct true fields =>
    have htext : render (.struct true fields) ++ rest = '<' :: '{' :: (renderFields fields ++ '}' :: '>' :: rest) := by
      simp [render]
    rw [htext, splitFieldsFrom_open (by decide) (by decide), splitFieldsFrom_open (by decide) (by decide),
      splitFieldsFrom_renderFields fields
        (fun field _ _ _ _ h => splitFieldsFrom_render field h) (by omega), splitFieldsFrom_close (by decide) (by decide) (by decide),
      splitFieldsFrom_close (by decide) (by decide) (by decide), Int.add_sub_cancel, Int.add_sub_cancel]
    simp [render]
  | .struct false fields =>
    have htext : render (.struct false fields) ++ rest = '{' :: (renderFields fields ++ '}' :: rest) := by
      simp [render]
    rw [htext, splitFieldsFrom_open (by decide) (by decide), splitFieldsFrom_renderFields fields
        (fun field _ _ _ _ h => splitFieldsFrom_render field h) (by omega),
      splitFieldsFrom_close (by decide) (by decide) (by decide), Int.add_sub_cancel]
    simp [render]
  | .named name =>
    apply splitFieldsFrom_plain
    intro c hc
    rcases List.mem_cons.1 hc with rfl | hc
    · decide
    · exact isPlainChar_of_isTypeNameChar (name.chars c hc)

end IrType

end RoundTrip

section Parse

variable {text rest s : Text} {fuel : ℕ} {c : Char}

theorem isSpace_of_isDigit (h : c.isDigit = true) : isSpace c = false := by
  have := isDigit_range h
  exact isSpace_graphic ⟨by omega, by omega⟩

theorem isSpace_of_isTypeNameChar (h : isTypeNameChar c = true) : isSpace c = false := by
  simp only [isTypeNameChar, Char.isAlphanum, Bool.or_eq_true, beq_iff_eq] at h
  rcases h with ((((h | h) | rfl) | rfl) | rfl) | rfl
  · rcases isAlpha_cases h with h | h
    · have := isUpper_range h
      exact isSpace_graphic ⟨by omega, by omega⟩
    · have := isLower_range h
      exact isSpace_graphic ⟨by omega, by omega⟩
  · exact isSpace_of_isDigit h
  all_goals rfl

theorem trimmed_of_ends {a b : Char} (ha : isSpace a = false) (hb : isSpace b = false) (s : Text) :
    Trimmed isSpace (a :: (s ++ [b])) := by
  refine ⟨fun c hc => ?_, fun c hc => ?_⟩
  · obtain rfl : a = c := by simpa using hc
    exact ha
  · rw [← List.cons_append, List.getLast?_concat] at hc
    rwa [← Option.some.inj hc]

theorem trim_blank_cons : trim isSpace (' ' :: s) = trim isSpace s := by
  rw [trim, trim, List.dropWhile_cons_of_pos (by decide)]

theorem trim_concat_blank (hne : s ≠ []) (h : Trimmed isSpace s) : trim isSpace (s ++ [' ']) = s := by
  obtain ⟨c, s', rfl⟩ := List.exists_cons_of_ne_nil hne
  have hc : ¬isSpace c = true := by
    rw [h.1 c rfl]
    exact Bool.false_ne_true
  have hself := trim_of_trimmed h
  rw [trim, List.dropWhile_cons_of_neg hc] at hself
  rw [trim, List.cons_append, List.dropWhile_cons_of_neg hc, ← List.cons_append,
    List.rdropWhile_concat_pos _ _ _ (by decide), hself]

namespace IrType

theorem render_ne_nil (t : IrType) : render t ≠ [] := by
  match t with
  | .int _ | .float | .double | .ptr | .array _ _ | .struct true _ | .struct false _ | .named _ =>
    exact List.cons_ne_nil _ _

theorem trimmed_render (t : IrType) : Trimmed isSpace (render t) := by
  match t with
  | .int bits =>
    apply trimmed_of_forall
    intro c hc
    rcases List.mem_cons.1 hc with rfl | hc
    · rfl
    · exact isSpace_of_isDigit (isDigit_of_mem_decimal hc)
  | .float | .double | .ptr => decide
  | .array count element =>
    have htext : render (.array count element) =
        '[' :: ((decimal count ++ (" x ".toList ++ render element)) ++ [']']) := by
      simp [render]
    rw [htext]
    exact trimmed_of_ends rfl rfl _
  | .struct true fields =>
    have htext : render (.struct true fields) = '<' :: (('{' :: (renderFields fields ++ ['}'])) ++ ['>']) := by
      simp [render]
    rw [htext]
    exact trimmed_of_ends rfl rfl _
  | .struct false fields => exact trimmed_of_ends rfl rfl _
  | .named name =>
    apply trimmed_of_forall
    intro c hc
    rcases List.mem_cons.1 hc with rfl | hc
    · rfl
    · exact isSpace_of_isTypeNameChar (name.chars c hc)

/-- **The fields are split** as they were joined. -/
theorem splitFields_renderFields (fields : List IrType) : splitFields (renderFields fields) = fields.map render := by
  unfold splitFields
  induction fields with
  | nil => rfl
  | cons field fields ih =>
    have hblank : ∀ c ∈ [' '], isPlainChar c = true := List.all_eq_true.1 rfl
    cases fields with
    | nil =>
      have htext : renderFields [field] = [' '] ++ (render field ++ ([' '] ++ [])) := by simp [renderFields]
      have htrim : trim isSpace ([] ++ [' '] ++ render field ++ [' ']) = render field := by
        rw [List.nil_append, List.singleton_append, List.cons_append, trim_blank_cons,
          trim_concat_blank (render_ne_nil field) (trimmed_render field)]
      rw [htext, splitFieldsFrom_plain hblank, splitFieldsFrom_render field (Int.le_refl 0),
        splitFieldsFrom_plain hblank, splitFieldsFrom, htrim, if_neg (render_ne_nil field)]
      rfl
    | cons second fields =>
      have htext : renderFields (field :: second :: fields) =
          [' '] ++ (render field ++ ',' :: renderFields (second :: fields)) := by
        simp [renderFields]
      have hcomma (current body : Text) : splitFieldsFrom 0 current (',' :: body) =
          trim isSpace current :: splitFieldsFrom 0 [] body := by
        rw [splitFieldsFrom]
        rfl
      rw [htext, splitFieldsFrom_plain hblank, splitFieldsFrom_render field (Int.le_refl 0), hcomma, ih,
        List.nil_append, List.singleton_append, trim_blank_cons, trim_of_trimmed (trimmed_render field)]
      rfl

end IrType

end Parse

/-! ## The round trip -/

section Reading

variable {text rest : Text} {m : ℕ}

/-- A text that begins with no letter is no word. -/
theorem parseType_of_bracket {c : Char} (hc : c ∉ "pvihfdx".toList) (h : Trimmed isSpace (c :: rest)) :
    parseType (m + 1) (c :: rest) = parseAggregate (parseType m) (c :: rest) := by
  simp at hc
  have hint : intBits (c :: rest) = none := by
    unfold intBits
    split
    · rename_i heq
      exact absurd (List.cons.inj heq).1 hc.2.2.1
    · rfl
  have hfloat : floatBits (c :: rest) = none := by simp [floatBits, hc]
  rw [parseType, trim_of_trimmed h, if_neg (by simp [hc]), if_neg (by simp [hc]), hint, hfloat]

theorem bracketed_concat (c : Char) (s : Text) : bracketed c (s ++ [c]) = some s := by
  simp [bracketed]

theorem counted_decimal (count : ℕ) (h : Trimmed isSpace text) :
    counted (decimal count ++ (" x ".toList ++ text)) = some (count, text) := by
  have hdigits : ∀ c ∈ decimal count, c.isDigit = true := fun c hc => isDigit_of_mem_decimal hc
  have htext : text.dropWhile isSpace = text := by
    cases text with
    | nil => rfl
    | cons c text =>
      rw [List.dropWhile_cons_of_neg]
      rw [h.1 c rfl]
      exact Bool.false_ne_true
  have htake : (decimal count ++ (" x ".toList ++ text)).takeWhile Char.isDigit = decimal count := by
    rw [List.takeWhile_append_of_pos hdigits]
    exact List.append_nil _
  have hdrop : (decimal count ++ (" x ".toList ++ text)).dropWhile Char.isDigit = ' ' :: 'x' :: ' ' :: text := by
    rw [List.dropWhile_append_of_pos hdigits]
    rfl
  have hblank : (' ' :: 'x' :: ' ' :: text).dropWhile isSpace = 'x' :: ' ' :: text := rfl
  have hlast : (' ' :: text).dropWhile isSpace = text.dropWhile isSpace := rfl
  rw [counted, htake, hdrop, hblank, readNumber_decimal]
  exact congrArg (fun element => some (count, element)) (hlast.trans htext)

namespace IrType

/-- The fields of a structure are read, as each of them is. -/
theorem parseTypes_render (fields : List IrType) (m : ℕ) (hfuel : (renderFields fields).length < m + 1)
    (hfields : ∀ field ∈ fields, (render field).length < m → parseType m (render field) = read field) :
    (fields.map render).mapM (parseType m) = readFields fields := by
  induction fields with
  | nil => rfl
  | cons field fields ih =>
    have hlength : (render field).length < m ∧ (renderFields fields).length < m + 1 := by
      rw [renderFields] at hfuel
      cases fields with
      | nil =>
        simp at hfuel ⊢
        simp [renderFields]
        omega
      | cons second fields =>
        simp only [List.isEmpty_cons, List.length_cons, List.length_append, Bool.false_eq_true, if_false] at hfuel
        omega
    rw [List.map_cons, List.mapM_cons, hfields field List.mem_cons_self hlength.1,
      ih hlength.2 fun other hother => hfields other (List.mem_cons_of_mem _ hother)]
    rfl

/-- **A type is read** from its text, and a packed structure is an error. -/
theorem parseType_render (t : IrType) (n : ℕ) (hfuel : (render t).length < n) : parseType n (render t) = read t := by
  obtain ⟨m, rfl⟩ : ∃ m, n = m + 1 := ⟨n - 1, by omega⟩
  have htrim := trimmed_render t
  match t with
  | .int bits =>
    have hint : intBits (render (.int bits)) = some bits := readNumber_decimal bits
    have hword : ¬render (.int bits) = "ptr".toList ∧ ¬render (.int bits) = "void".toList := by simp [render]
    rw [parseType, trim_of_trimmed htrim, if_neg hword.1, if_neg hword.2, hint]
    rfl
  | .float => rfl
  | .double => rfl
  | .ptr => rfl
  | .array count element =>
    have htext : render (.array count element) =
        '[' :: ((decimal count ++ (" x ".toList ++ render element)) ++ [']']) := by
      simp [render]
    have hlength : (render element).length < m := by
      rw [htext] at hfuel
      simp only [List.length_cons, List.length_append] at hfuel
      omega
    rw [htext] at htrim ⊢
    rw [parseType_of_bracket (by decide) htrim, parseAggregate, bracketed_concat, Option.bind_some,
      counted_decimal count (trimmed_render element), Option.bind_some, parseType_render element m hlength]
    rfl
  | .struct true fields =>
    have htext : render (.struct true fields) = '<' :: (('{' :: (renderFields fields ++ ['}'])) ++ ['>']) := by
      simp [render]
    rw [htext] at htrim ⊢
    rw [parseType_of_bracket (by decide) htrim, parseAggregate, bracketed_concat]
    rfl
  | .struct false fields =>
    have htext : render (.struct false fields) = '{' :: (renderFields fields ++ ['}']) := by simp [render]
    have hlength : (renderFields fields).length < m + 1 := by
      rw [htext] at hfuel
      simp only [List.length_cons, List.length_append] at hfuel
      omega
    rw [htext] at htrim ⊢
    rw [parseType_of_bracket (by decide) htrim, parseAggregate, bracketed_concat, Option.bind_some,
      splitFields_renderFields, parseTypes_render fields m hlength fun field _ => parseType_render field m]
    rfl
  | .named name =>
    rw [render, TypeName.reference] at htrim ⊢
    rw [parseType_of_bracket (by decide) htrim]
    rfl

end IrType

end Reading

end SemantiST.Harness
