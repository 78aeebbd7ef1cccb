import SemantiST.Lib.PythonFloat
import SemantiST.Reporting.Reducer

/-!
# Simpler values

`value_candidates` (`fuzzer/reporting/minimize.py`): the values that the reducer tries in place of the one a
record has, and the rounds of `_shrink_values`.
-/

namespace SemantiST.Reporting

open Lib

/-- What asking for candidates comes to: `raised` is an `OverflowError`, and `endless` a loop that is not left. -/
inductive Candidates where
  | values (l : List Text)
  | raised
  | endless
deriving DecidableEq

def integerBounds : List (Text × ℤ × ℤ) :=
  [("SINT".toList, -2 ^ 7, 2 ^ 7 - 1), ("USINT".toList, 0, 2 ^ 8 - 1), ("BYTE".toList, 0, 2 ^ 8 - 1),
    ("INT".toList, -2 ^ 15, 2 ^ 15 - 1), ("UINT".toList, 0, 2 ^ 16 - 1), ("WORD".toList, 0, 2 ^ 16 - 1),
    ("DINT".toList, -2 ^ 31, 2 ^ 31 - 1), ("UDINT".toList, 0, 2 ^ 32 - 1), ("DWORD".toList, 0, 2 ^ 32 - 1),
    ("LINT".toList, -2 ^ 63, 2 ^ 63 - 1), ("ULINT".toList, 0, 2 ^ 64 - 1), ("LWORD".toList, 0, 2 ^ 64 - 1),
    ("CHAR".toList, 0, 255)]

def boundsOf (ty : Text) : Option (ℤ × ℤ) := (integerBounds.find? fun entry => entry.1 = ty).map Prod.snd

def floatTypes : List Text := ["REAL".toList, "LREAL".toList]
def stringTypes : List Text := ["STRING".toList, "WSTRING".toList]
def byteTypes : List Text := ["POINTER".toList, "ARRAY".toList]

/-- `ordered_unique` -/
def orderedUnique (values : List Text) : List Text := values.eraseDups

/-! ## Integers -/

/-- `int(current / 2)`; a quotient that no double holds is an `OverflowError`. -/
def truncatedHalf (n : ℤ) : Option ℤ :=
  (nearestDouble ((n.natAbs : ℚ) / 2)).map fun d => if n < 0 then -⌊d⌋ else ⌊d⌋

/-- `while current not in (0, 1, -1)`, for at most `fuel` rounds. -/
def integerHalves : ℕ → ℤ → Option (List ℤ)
  | 0, _ => some []
  | fuel + 1, current =>
    if current ∈ [0, 1, -1] then some []
    else do
      let half ← truncatedHalf current
      let rest ← integerHalves fuel half
      return half :: rest

/-- The powers of two below `n`, with both signs. -/
def signedPowers (n : ℕ) : List ℤ := (List.range (Nat.clog 2 n)).flatMap fun k => [2 ^ k, -2 ^ k]

variable (u : CharacterData)

def integerCandidates (value : Text) (bounds : ℤ × ℤ) : Candidates :=
  match u.int 0 value with
  | none => .values []
  | some original =>
    match integerHalves original.natAbs original with
    | none => .raised
    | some halves =>
      let (lo, hi) := bounds
      let raw := [0, 1, -1] ++ halves ++ signedPowers original.natAbs ++
        [lo, hi, lo + 1, hi - 1].filter fun boundary => boundary.natAbs ≤ original.natAbs
      .values (orderedUnique ((raw.filter fun item => lo ≤ item ∧ item ≤ hi ∧ item ≠ original).map intText))

/-! ## Floating-point numbers -/

def formatFloat (value : ℚ) : Text :=
  let text := formatG 12 value
  if 'e' ∉ text.map Char.toLower ∧ '.' ∉ text then text ++ ".0".toList else text

/-- `while abs(current) > 1.0`, for at most `fuel` rounds; a double above one is halved exactly. -/
def floatHalves : ℕ → ℚ → List ℚ
  | 0, _ => []
  | fuel + 1, current => if 1 < |current| then current / 2 :: floatHalves fuel (current / 2) else []

/-- Rounds enough for a double. -/
def halvings (value : ℚ) : ℕ := Nat.clog 2 ⌈|value|⌉₊

def floatCandidates (value : Text) : Candidates :=
  match u.float value with
  | none => .values []
  | some (.infinite _) => .endless
  | some .nan => .values (orderedUnique ([0, 1, -1].map formatFloat))
  | some (.finite original) =>
    let raw := [0, 1, -1] ++ floatHalves (halvings original) original
    .values (orderedUnique ((raw.filter fun item => item ≠ original).map formatFloat))

/-! ## Texts and bytes -/

/-- `step //= 2` as long as it is not zero. -/
def halvesFrom : ℕ → ℕ → List ℕ
  | 0, _ => []
  | fuel + 1, step => if 0 < step then step :: halvesFrom fuel (step / 2) else []

def stringCandidates (value : Text) : List Text :=
  let raw := [[], value.take 1] ++ (halvesFrom value.length (value.length / 2)).map value.take ++
    ([2, 4, 8, 16, 32, 64, 128].filter fun length => length < value.length).map value.take
  (orderedUnique raw).filter fun candidate => candidate ≠ value

/-- `bytes.fromhex`: pairs of digits, with spaces between them. -/
def fromHex : Text → Option (List UInt8)
  | [] => some []
  | [c] => if isAsciiSpace c then some [] else none
  | c :: d :: rest =>
    if isAsciiSpace c then fromHex (d :: rest)
    else do
      let high ← hexDigit c
      let low ← hexDigit d
      let bytes ← fromHex rest
      return UInt8.ofNat (16 * high + low) :: bytes

def hexOf (bytes : List UInt8) : Text :=
  bytes.flatMap fun byte => [Nat.digitChar (byte.toNat / 16), Nat.digitChar (byte.toNat % 16)]

/-- What is left without the bytes of one chunk, and with zeros in their place. -/
def chunkCandidates (data : List UInt8) (chunk start : ℕ) : List (List UInt8) :=
  [data.take start ++ data.drop (start + chunk),
    data.take start ++ List.replicate (min chunk (data.length - start)) 0 ++ data.drop (start + chunk)]

/-- `range(0, length, chunk)` -/
def chunkStarts (length chunk : ℕ) : List ℕ :=
  (List.range ((length + chunk - 1) / chunk)).map fun k => k * chunk

def hexByteCandidates (value : Text) : List Text :=
  let rawHex := value.drop 2
  if rawHex.length % 2 ≠ 0 then []
  else
    match fromHex rawHex with
    | none => []
    | some data =>
      let chunk := max 1 (data.length / 2)
      let raw := [[], [0], List.replicate data.length 0] ++
        (halvesFrom data.length (data.length / 2)).map data.take ++
        (halvesFrom chunk chunk).flatMap fun chunk =>
          (chunkStarts data.length chunk).flatMap (chunkCandidates data chunk)
      orderedUnique ((raw.filter fun candidate => candidate ≠ data).map fun candidate =>
        "0x".toList ++ hexOf candidate)

/-! ## All types -/

def startsHex (value : Text) : Bool := "0x".toList.isPrefixOf value || "0X".toList.isPrefixOf value

def valueCandidates (record : SeedRecord) : Candidates :=
  let ty := u.upperText record.ty
  if ty = "BOOL".toList then
    .values (["0".toList, "1".toList].filter fun value => value ≠ record.value)
  else
    match boundsOf ty with
    | some bounds => integerCandidates u record.value bounds
    | none =>
      if ty ∈ floatTypes then floatCandidates u record.value
      else if ty ∈ stringTypes then .values (stringCandidates record.value)
      else if ty ∈ byteTypes then
        .values (if startsHex record.value then hexByteCandidates record.value else stringCandidates record.value)
      else .values []

/-! ## Shrinking -/

structure Shrinking where
  records : List SeedRecord
  index : ℕ
deriving DecidableEq

def Shrinking.replace (s : Shrinking) (value : Text) : Shrinking :=
  { s with records := s.records.modify s.index fun record => { record with value } }

/-- One round of `_shrink_values`. -/
def shrinkValue (oracle : Oracle) (s : Shrinking) : Turn Shrinking :=
  match s.records[s.index]? with
  | none => .done
  | some record =>
    match valueCandidates u record with
    | .raised => .raised
    | .endless => .endless
    | .values values =>
      turnTo (fun s => reproduces u oracle s.records) (values.map s.replace)
        (.next { s with index := s.index + 1 })

end SemantiST.Reporting
