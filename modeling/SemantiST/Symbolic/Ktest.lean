import SemantiST.Lib.Bytes
import SemantiST.Lib.Dict
import SemantiST.Lib.Utf8

/-!
# KTEST files

`decode_ktest` (`compiler/symbolic/solver.py`) reads the objects of a test that the symbolic executor
writes.  `run_query` handles `ValueError` only.
-/

namespace SemantiST.Symbolic

open Lib

/-! ## The decoder -/

/-- The exceptions that are raised: that of the decoder, and that of `struct.unpack_from`. -/
inductive KtestError where
  | valueError | structError
deriving DecidableEq

/-- An object as it is read, with its length field. -/
structure KtestObject where
  name : Text
  size : ℕ
  bytes : List UInt8
deriving DecidableEq

/-- `u32`: the number at the cursor, and the bytes behind it. -/
def readU32 (bytes : List UInt8) : Except KtestError (ℕ × List UInt8) :=
  if 4 ≤ bytes.length then .ok (ByteOrder.big.decode (bytes.take 4), bytes.drop 4) else .error .structError

/-- The arguments are skipped, by their lengths. -/
def skipArguments : ℕ → List UInt8 → Except KtestError (List UInt8)
  | 0, bytes => .ok bytes
  | count + 1, bytes => do
    let (length, bytes) ← readU32 bytes
    skipArguments count (bytes.drop length)

def readObjects : ℕ → List UInt8 → Except KtestError (List KtestObject)
  | 0, _ => .ok []
  | count + 1, bytes => do
    let (nameLength, bytes) ← readU32 bytes
    let name := decodeReplace (bytes.take nameLength)
    let (size, bytes) ← readU32 (bytes.drop nameLength)
    let objects ← readObjects count (bytes.drop size)
    return { name, size, bytes := bytes.take size } :: objects

def magic : List UInt8 := utf8Bytes "KTEST".toList

/-- What comes behind the version. -/
def readBody (bytes : List UInt8) : Except KtestError (List KtestObject) := do
  let (count, bytes) ← readU32 bytes
  let bytes ← skipArguments count bytes
  let (_, bytes) ← readU32 bytes
  let (_, bytes) ← readU32 bytes
  let (count, bytes) ← readU32 bytes
  readObjects count bytes

/-- The objects as they are read. -/
def readKtest (data : List UInt8) : Except KtestError (List KtestObject) :=
  if data.length < 9 ∨ data.take 5 ≠ magic then .error .valueError
  else do
    let (version, bytes) ← readU32 (data.drop 5)
    if version < 2 then .error .valueError else readBody bytes

/-- `decode_ktest` -/
def decodeKtest (data : List UInt8) : Except KtestError (List (Text × List UInt8)) := do
  return (← readKtest data).foldl (fun objects object => put objects object.name object.bytes) []

/-! ## The format -/

def encodeU32 (n : ℕ) : List UInt8 := ByteOrder.big.encode 4 n

/-- A text of bytes after its length. -/
def encodeBlock (bytes : List UInt8) : List UInt8 := encodeU32 bytes.length ++ bytes

/-- What a file holds; every length fits its field. -/
structure KtestFile where
  version : ℕ
  arguments : List (List UInt8)
  symArgvs : ℕ
  symArgvLen : ℕ
  objects : List (List UInt8 × List UInt8)
  version_ge : 2 ≤ version
  version_lt : version < 256 ^ 4
  arguments_lt : arguments.length < 256 ^ 4
  argument_lt : ∀ argument ∈ arguments, argument.length < 256 ^ 4
  symArgvs_lt : symArgvs < 256 ^ 4
  symArgvLen_lt : symArgvLen < 256 ^ 4
  objects_lt : objects.length < 256 ^ 4
  object_lt : ∀ object ∈ objects, object.1.length < 256 ^ 4 ∧ object.2.length < 256 ^ 4

def encodeObject (object : List UInt8 × List UInt8) : List UInt8 := encodeBlock object.1 ++ encodeBlock object.2

/-- The KTEST encoding. -/
def KtestFile.encode (file : KtestFile) : List UInt8 :=
  magic ++ encodeU32 file.version ++ encodeU32 file.arguments.length ++ file.arguments.flatMap encodeBlock ++
    encodeU32 file.symArgvs ++ encodeU32 file.symArgvLen ++ encodeU32 file.objects.length ++
      file.objects.flatMap encodeObject

/-! ## Reading numbers and blocks -/

theorem ok_bind {α β : Type} (a : α) (f : α → Except KtestError β) : (Except.ok a >>= f) = f a := rfl

theorem bind_ok {α β : Type} {x : Except KtestError α} {f : α → Except KtestError β} {b : β}
    (h : x >>= f = .ok b) : ∃ a, x = .ok a ∧ f a = .ok b := by
  cases x with
  | error error => cases h
  | ok a => exact ⟨a, rfl, h⟩

theorem bind_error {α β : Type} {x : Except KtestError α} {f : α → Except KtestError β} {error : KtestError}
    (h : x >>= f = .error error) : x = .error error ∨ ∃ a, x = .ok a ∧ f a = .error error := by
  cases x with
  | error other =>
    cases h
    exact .inl rfl
  | ok a => exact .inr ⟨a, rfl, h⟩

@[simp] theorem length_encodeU32 (n : ℕ) : (encodeU32 n).length = 4 := ByteOrder.length_encode _ _ _

theorem readU32_encodeU32 {n : ℕ} (h : n < 256 ^ 4) (rest : List UInt8) :
    readU32 (encodeU32 n ++ rest) = .ok (n, rest) := by
  have hle : 4 ≤ (encodeU32 n ++ rest).length := by
    rw [List.length_append, length_encodeU32]
    omega
  rw [readU32, if_pos hle, List.take_left' (length_encodeU32 n), List.drop_left' (length_encodeU32 n), encodeU32,
    ByteOrder.decode_encode _ h]

/-- What is read as a number is the encoding of one. -/
theorem eq_of_readU32 {bytes rest : List UInt8} {n : ℕ} (h : readU32 bytes = .ok (n, rest)) :
    bytes = encodeU32 n ++ rest ∧ n < 256 ^ 4 := by
  unfold readU32 at h
  split at h
  · rename_i hle
    cases h
    have hlength : (bytes.take 4).length = 4 := by
      rw [List.length_take]
      omega
    have hencode := ByteOrder.big.encode_decode (bytes.take 4)
    have hlt := ByteOrder.big.decode_lt (bytes.take 4)
    rw [hlength] at hencode hlt
    exact ⟨by rw [encodeU32, hencode, List.take_append_drop], hlt⟩
  · cases h

theorem skipArguments_encode {arguments : List (List UInt8)} (h : ∀ argument ∈ arguments, argument.length < 256 ^ 4)
    (rest : List UInt8) : skipArguments arguments.length (arguments.flatMap encodeBlock ++ rest) = .ok rest := by
  induction arguments with
  | nil => rfl
  | cons argument arguments ih =>
    rw [List.length_cons, skipArguments, List.flatMap_cons, encodeBlock, List.append_assoc, List.append_assoc,
      readU32_encodeU32 (h argument List.mem_cons_self)]
    change skipArguments _ (List.drop _ _) = _
    rw [List.drop_left]
    exact ih fun other hother => h other (List.mem_cons_of_mem _ hother)

/-- An object as it is read from its encoding. -/
def objectOf (object : List UInt8 × List UInt8) : KtestObject :=
  { name := decodeReplace object.1, size := object.2.length, bytes := object.2 }

theorem readObjects_encode {objects : List (List UInt8 × List UInt8)}
    (h : ∀ object ∈ objects, object.1.length < 256 ^ 4 ∧ object.2.length < 256 ^ 4) (rest : List UInt8) :
    readObjects objects.length (objects.flatMap encodeObject ++ rest) = .ok (objects.map objectOf) := by
  induction objects with
  | nil => rfl
  | cons object objects ih =>
    obtain ⟨hname, hsize⟩ := h object List.mem_cons_self
    have hbytes : (object :: objects).flatMap encodeObject ++ rest = encodeU32 object.1.length ++
        (object.1 ++ (encodeU32 object.2.length ++ (object.2 ++ (objects.flatMap encodeObject ++ rest)))) := by
      simp [encodeObject, encodeBlock]
    rw [List.length_cons, readObjects, hbytes, readU32_encodeU32 hname]
    change (readU32 (List.drop _ _) >>= _) = _
    rw [List.drop_left, readU32_encodeU32 hsize]
    change (readObjects _ (List.drop _ _) >>= _) = _
    rw [List.drop_left, ih fun other hother => h other (List.mem_cons_of_mem _ hother)]
    change Except.ok _ = _
    rw [List.take_left, List.take_left]
    rfl

/-- **A file is read as it is, whatever comes behind it.** -/
theorem readKtest_encode (file : KtestFile) (rest : List UInt8) :
    readKtest (file.encode ++ rest) = .ok (file.objects.map objectOf) := by
  have hbytes : file.encode ++ rest = magic ++ (encodeU32 file.version ++ (encodeU32 file.arguments.length ++
      (file.arguments.flatMap encodeBlock ++ (encodeU32 file.symArgvs ++ (encodeU32 file.symArgvLen ++
        (encodeU32 file.objects.length ++ (file.objects.flatMap encodeObject ++ rest))))))) := by
    simp [KtestFile.encode]
  have hmagic : magic.length = 5 := by decide
  have hheader : ¬((file.encode ++ rest).length < 9 ∨ (file.encode ++ rest).take 5 ≠ magic) := by
    have hlong : 9 ≤ (file.encode ++ rest).length := by
      rw [hbytes, List.length_append, List.length_append, hmagic, length_encodeU32]
      omega
    rintro (hlt | hne)
    · exact Nat.not_lt.2 hlong hlt
    · exact hne (by rw [hbytes, List.take_left' hmagic])
  have hversion : ¬file.version < 2 := Nat.not_lt.2 file.version_ge
  rw [readKtest, if_neg hheader, hbytes, List.drop_left' hmagic, readU32_encodeU32 file.version_lt]
  change (if file.version < 2 then _ else _) = _
  rw [if_neg hversion]
  simp only [readBody, ok_bind, readU32_encodeU32 file.arguments_lt, skipArguments_encode file.argument_lt,
    readU32_encodeU32 file.symArgvs_lt, readU32_encodeU32 file.symArgvLen_lt, readU32_encodeU32 file.objects_lt]
  exact readObjects_encode file.object_lt rest

theorem foldl_put {objects : List KtestObject} {read : List (Text × List UInt8)}
    (hnodup : (read.map Prod.fst ++ objects.map KtestObject.name).Nodup) :
    objects.foldl (fun objects object => put objects object.name object.bytes) read =
      read ++ objects.map fun object => (object.name, object.bytes) := by
  induction objects generalizing read with
  | nil => simp
  | cons object objects ih =>
    have hnew : object.name ∉ read.map Prod.fst := by
      intro hmem
      rw [List.map_cons] at hnodup
      exact (List.nodup_append.1 hnodup).2.2 _ hmem _ List.mem_cons_self rfl
    rw [List.foldl_cons, put, if_neg hnew, ih]
    · simp
    · simpa [List.append_assoc] using hnodup

/-- **The objects of a file with distinct UTF-8 names are decoded exactly.** -/
theorem decodeKtest_encode (file : KtestFile) (objects : List (Text × List UInt8))
    (hobjects : file.objects = objects.map fun object => (utf8Bytes object.1, object.2))
    (hnodup : (objects.map Prod.fst).Nodup) : decodeKtest file.encode = .ok objects := by
  have hread := readKtest_encode file []
  rw [List.append_nil, hobjects, List.map_map] at hread
  have hnames : (objects.map (objectOf ∘ fun object => (utf8Bytes object.1, object.2))).map KtestObject.name =
      objects.map Prod.fst := by
    rw [List.map_map]
    exact List.map_congr_left fun object _ => decodeReplace_utf8Bytes object.1
  have hput := @foldl_put (objects.map (objectOf ∘ fun object => (utf8Bytes object.1, object.2))) []
    (by rw [hnames]; exact hnodup)
  rw [decodeKtest, hread]
  change Except.ok _ = _
  rw [hput, List.nil_append, List.map_map]
  congr 1
  refine (List.map_congr_left fun object _ => ?_).trans (List.map_id objects)
  exact Prod.ext (decodeReplace_utf8Bytes object.1) rfl

/-! ## What else is read -/

/-- No KTEST file of a version that is read. -/
def NotKtest (data : List UInt8) : Prop :=
  data.length < 9 ∨ data.take 5 ≠ magic ∨ ByteOrder.big.decode ((data.drop 5).take 4) < 2

/-- The data start with a whole file: every block that a length field announces is there. -/
def Complete (data : List UInt8) : Prop := ∃ (file : KtestFile) (rest : List UInt8), data = file.encode ++ rest

/-- The decoder raises `ValueError`, or reads objects as long as their length fields say. -/
def Exact (data : List UInt8) : Prop :=
  match readKtest data with
  | .ok objects => ∀ object ∈ objects, object.bytes.length = object.size
  | .error error => error = .valueError

/-- Arguments behind which bytes are left were there. -/
theorem eq_of_skipArguments {count : ℕ} {bytes rest : List UInt8} (h : skipArguments count bytes = .ok rest)
    (hrest : rest ≠ []) : ∃ arguments : List (List UInt8), arguments.length = count ∧
      (∀ argument ∈ arguments, argument.length < 256 ^ 4) ∧ bytes = arguments.flatMap encodeBlock ++ rest := by
  induction count generalizing bytes with
  | zero =>
    cases h
    exact ⟨[], rfl, by simp, rfl⟩
  | succ count ih =>
    rw [skipArguments] at h
    obtain ⟨⟨length, after⟩, hread, h⟩ := bind_ok h
    dsimp only at h
    obtain ⟨hbytes, hlt⟩ := eq_of_readU32 hread
    obtain ⟨arguments, rfl, hall, hafter⟩ := ih h
    have hle : length ≤ after.length := by
      by_contra hgt
      rw [List.drop_eq_nil_of_le (by omega)] at hafter
      exact hrest (List.append_eq_nil_iff.1 hafter.symm).2
    have htake : (after.take length).length = length := by rw [List.length_take, Nat.min_eq_left hle]
    refine ⟨after.take length :: arguments, rfl, ?_, ?_⟩
    · intro argument hargument
      rcases List.mem_cons.1 hargument with rfl | hargument
      · rw [htake]
        exact hlt
      · exact hall argument hargument
    · rw [List.flatMap_cons, encodeBlock, htake, List.append_assoc, List.append_assoc, ← hafter,
        List.take_append_drop, hbytes]

/-- Objects as long as their length fields say were there. -/
theorem eq_of_readObjects {count : ℕ} {bytes : List UInt8} {objects : List KtestObject}
    (h : readObjects count bytes = .ok objects) (hexact : ∀ object ∈ objects, object.bytes.length = object.size) :
    ∃ (written : List (List UInt8 × List UInt8)) (rest : List UInt8), written.length = count ∧
      (∀ object ∈ written, object.1.length < 256 ^ 4 ∧ object.2.length < 256 ^ 4) ∧
        bytes = written.flatMap encodeObject ++ rest := by
  induction count generalizing bytes objects with
  | zero => exact ⟨[], bytes, rfl, by simp, rfl⟩
  | succ count ih =>
    rw [readObjects] at h
    obtain ⟨⟨nameLength, named⟩, hname, h⟩ := bind_ok h
    obtain ⟨hbytes, hnameLt⟩ := eq_of_readU32 hname
    dsimp only at h
    obtain ⟨⟨size, sized⟩, hsize, h⟩ := bind_ok h
    obtain ⟨hnamed, hsizeLt⟩ := eq_of_readU32 hsize
    dsimp only at h
    obtain ⟨others, hothers, h⟩ := bind_ok h
    cases h
    have hnameLe : nameLength ≤ named.length := by
      have hlengths := congrArg List.length hnamed
      rw [List.length_drop, List.length_append, length_encodeU32] at hlengths
      omega
    have hnameTake : (named.take nameLength).length = nameLength := by rw [List.length_take, Nat.min_eq_left hnameLe]
    have hsizeTake : (sized.take size).length = size := hexact _ List.mem_cons_self
    obtain ⟨written, rest, rfl, hall, hwritten⟩ := ih hothers fun object hobject =>
      hexact object (List.mem_cons_of_mem _ hobject)
    refine ⟨(named.take nameLength, sized.take size) :: written, rest, rfl, ?_, ?_⟩
    · intro object hobject
      rcases List.mem_cons.1 hobject with rfl | hobject
      · exact ⟨hnameTake.symm ▸ hnameLt, hsizeTake.symm ▸ hsizeLt⟩
      · exact hall object hobject
    · calc bytes = encodeU32 nameLength ++ (named.take nameLength ++ named.drop nameLength) := by
            rw [hbytes, List.take_append_drop]
        _ = encodeU32 nameLength ++ (named.take nameLength ++
              (encodeU32 size ++ (sized.take size ++ (written.flatMap encodeObject ++ rest)))) := by
            rw [hnamed, ← hwritten, List.take_append_drop]
        _ = ((named.take nameLength, sized.take size) :: written).flatMap encodeObject ++ rest := by
            simp [encodeObject, encodeBlock, hnameTake, hsizeTake]

/-- A body whose objects are as long as their length fields say was there. -/
theorem eq_of_readBody {bytes : List UInt8} {objects : List KtestObject} (h : readBody bytes = .ok objects)
    (hexact : ∀ object ∈ objects, object.bytes.length = object.size) {version : ℕ} (hge : 2 ≤ version)
    (hlt : version < 256 ^ 4) :
    ∃ (file : KtestFile) (rest : List UInt8), magic ++ (encodeU32 version ++ bytes) = file.encode ++ rest := by
  rw [readBody] at h
  obtain ⟨⟨argumentCount, behindCount⟩, hcount, h⟩ := bind_ok h
  obtain ⟨hbytes, hargumentsLt⟩ := eq_of_readU32 hcount
  dsimp only at h
  obtain ⟨behindArguments, hskip, h⟩ := bind_ok h
  obtain ⟨⟨symArgvs, behindArgvs⟩, hargvs, h⟩ := bind_ok h
  obtain ⟨hbehind, hargvsLt⟩ := eq_of_readU32 hargvs
  dsimp only at h
  obtain ⟨⟨symArgvLen, behindArgvLen⟩, hargvLen, h⟩ := bind_ok h
  obtain ⟨hbehindArgvs, hargvLenLt⟩ := eq_of_readU32 hargvLen
  dsimp only at h
  obtain ⟨⟨objectCount, behindObjects⟩, hobjectCount, h⟩ := bind_ok h
  obtain ⟨hbehindArgvLen, hobjectsLt⟩ := eq_of_readU32 hobjectCount
  dsimp only at h
  have hnonempty : behindArguments ≠ [] := by
    rintro rfl
    have hlengths := congrArg List.length hbehind
    rw [List.length_append, length_encodeU32, List.length_nil] at hlengths
    omega
  obtain ⟨arguments, hargumentCount, hargument, hbehindCount⟩ := eq_of_skipArguments hskip hnonempty
  obtain ⟨written, rest, hwrittenCount, hobject, hbehindObjects⟩ := eq_of_readObjects h hexact
  subst hargumentCount hwrittenCount
  refine ⟨⟨version, arguments, symArgvs, symArgvLen, written, hge, hlt, hargumentsLt, hargument, hargvsLt, hargvLenLt,
    hobjectsLt, hobject⟩, rest, ?_⟩
  rw [hbytes, hbehindCount, hbehind, hbehindArgvs, hbehindArgvLen, hbehindObjects]
  simp [KtestFile.encode]

/-- Behind the version only `struct.unpack_from` fails. -/
theorem eq_structError_of_readBody {bytes : List UInt8} {error : KtestError} (h : readBody bytes = .error error) :
    error = .structError := by
  have hread : ∀ {bytes : List UInt8} {error : KtestError}, readU32 bytes = .error error → error = .structError := by
    intro bytes error h
    unfold readU32 at h
    split at h
    · cases h
    · exact (Except.error.inj h).symm
  have hskip : ∀ {count : ℕ} {bytes : List UInt8} {error : KtestError}, skipArguments count bytes = .error error →
      error = .structError := by
    intro count
    induction count with
    | zero =>
      intro bytes error h
      cases h
    | succ count ih =>
      intro bytes error h
      rw [skipArguments] at h
      rcases bind_error h with h | ⟨_, _, h⟩
      · exact hread h
      · exact ih h
  have hobjects : ∀ {count : ℕ} {bytes : List UInt8} {error : KtestError}, readObjects count bytes = .error error →
      error = .structError := by
    intro count
    induction count with
    | zero =>
      intro bytes error h
      cases h
    | succ count ih =>
      intro bytes error h
      rw [readObjects] at h
      rcases bind_error h with h | ⟨_, _, h⟩
      · exact hread h
      rcases bind_error h with h | ⟨_, _, h⟩
      · exact hread h
      rcases bind_error h with h | ⟨_, _, h⟩
      · exact ih h
      · cases h
  rw [readBody] at h
  rcases bind_error h with h | ⟨_, _, h⟩
  · exact hread h
  rcases bind_error h with h | ⟨_, _, h⟩
  · exact hskip h
  rcases bind_error h with h | ⟨_, _, h⟩
  · exact hread h
  rcases bind_error h with h | ⟨_, _, h⟩
  · exact hread h
  rcases bind_error h with h | ⟨_, _, h⟩
  · exact hread h
  · exact hobjects h

/-- Data with the header of a file are its body behind the magic bytes and the version. -/
theorem eq_of_not_notKtest {data : List UInt8} (h : ¬NotKtest data) : ∃ (version : ℕ) (bytes : List UInt8),
    2 ≤ version ∧ version < 256 ^ 4 ∧ data = magic ++ (encodeU32 version ++ bytes) ∧
      readKtest data = readBody bytes := by
  unfold NotKtest at h
  push Not at h
  obtain ⟨hlength, hmagic, hversion⟩ := h
  have hheader : ¬(data.length < 9 ∨ data.take 5 ≠ magic) := by
    rintro (hlt | hne)
    · omega
    · exact hne hmagic
  have hfour : 4 ≤ (data.drop 5).length := by
    rw [List.length_drop]
    omega
  have hread : readU32 (data.drop 5) = .ok (ByteOrder.big.decode ((data.drop 5).take 4), (data.drop 5).drop 4) := by
    rw [readU32, if_pos hfour]
  obtain ⟨hbytes, hlt⟩ := eq_of_readU32 hread
  refine ⟨ByteOrder.big.decode ((data.drop 5).take 4), (data.drop 5).drop 4, hversion, hlt, ?_, ?_⟩
  · rw [← hbytes, ← hmagic, List.take_append_drop]
  · rw [readKtest, if_neg hheader, hread, ok_bind]
    exact if_neg (Nat.not_lt.2 hversion)

theorem readKtest_of_notKtest {data : List UInt8} (h : NotKtest data) : readKtest data = .error .valueError := by
  unfold readKtest
  split
  · rfl
  · rename_i hheader
    push Not at hheader
    have hfour : 4 ≤ (data.drop 5).length := by
      rw [List.length_drop]
      omega
    rw [readU32, if_pos hfour, ok_bind]
    rcases h with hlt | hne | hversion
    · omega
    · exact absurd hheader.2 hne
    · exact if_pos hversion

/-- **Data are classified as the caller expects if they are no file at all, or a whole one.** -/
theorem exact_iff (data : List UInt8) : Exact data ↔ NotKtest data ∨ Complete data := by
  constructor
  · intro h
    by_cases hktest : NotKtest data
    · exact .inl hktest
    obtain ⟨version, bytes, hge, hlt, hdata, hread⟩ := eq_of_not_notKtest hktest
    unfold Exact at h
    rw [hread] at h
    cases hbody : readBody bytes with
    | error error =>
      rw [hbody] at h
      cases h.symm.trans (eq_structError_of_readBody hbody)
    | ok objects =>
      rw [hbody] at h
      obtain ⟨file, rest, hfile⟩ := eq_of_readBody hbody h hge hlt
      exact .inr ⟨file, rest, hdata.trans hfile⟩
  · unfold Exact
    rintro (h | ⟨file, rest, rfl⟩)
    · rw [readKtest_of_notKtest h]
    · rw [readKtest_encode]
      intro object hobject
      obtain ⟨written, -, rfl⟩ := List.mem_map.1 hobject
      rfl

/-- **Every file is decoded exactly; other data are classified if and only if they are no file or hold a whole one.** -/
theorem ktest_decoding (data : List UInt8) :
    (∀ (file : KtestFile) (objects : List (Text × List UInt8)), data = file.encode →
      file.objects = objects.map (fun object => (utf8Bytes object.1, object.2)) → (objects.map Prod.fst).Nodup →
        decodeKtest data = .ok objects) ∧
      (Exact data ↔ NotKtest data ∨ Complete data) := by
  refine ⟨?_, exact_iff data⟩
  rintro file objects rfl
  exact decodeKtest_encode file objects

/-- A file with one object. -/
def oneObject : KtestFile :=
  ⟨3, [utf8Bytes "unit".toList], 0, 0, [(utf8Bytes "frame".toList, [1, 2])], by decide, by decide, by decide,
    by decide +kernel, by decide, by decide, by decide, by decide +kernel⟩

theorem ktest_decoding_oneObject :
    decodeKtest oneObject.encode = .ok [("frame".toList, [1, 2])] ∧ Exact (oneObject.encode ++ [0]) :=
  ⟨(ktest_decoding oneObject.encode).1 oneObject [("frame".toList, [1, 2])] rfl rfl (by simp),
    (ktest_decoding (oneObject.encode ++ [0])).2.2 (.inr ⟨oneObject, [0], rfl⟩)⟩

/-- The header of version 3, and nothing behind it. -/
def headerOnly : List UInt8 := magic ++ encodeU32 3

/-- **A file that ends behind its version is an error that the caller does not handle.** -/
theorem not_exact_headerOnly : ¬Exact headerOnly := by
  have hread : readKtest headerOnly = .error .structError := by decide +kernel
  unfold Exact
  rw [hread]
  exact fun h => KtestError.noConfusion h

end SemantiST.Symbolic
