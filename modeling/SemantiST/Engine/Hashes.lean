import SemantiST.Engine.Frames

/-!
# Frame hashes

FNV-1a over the fields of a frame, and over the hashes of the frames so far
(`fuzzer/engine/src/frames.rs`).
-/

namespace SemantiST.Engine

open Lib

def fnvOffset : UInt64 := 14695981039346656037
def fnvPrime : UInt64 := 1099511628211
def frameSeparator : UInt8 := 0x1e

def fnv1a64 (data : List UInt8) (seed : UInt64) : UInt64 :=
  data.foldl (fun value byte => (value ^^^ byte.toUInt64) * fnvPrime) seed

/-- `as_bytes`. -/
def asBytes (text : Text) : List UInt8 := text.flatMap String.utf8EncodeChar

/-- `to_le_bytes`. -/
def toLeBytes (n : UInt64) : List UInt8 := (List.range 8).map fun i => (n >>> (8 * UInt64.ofNat i)).toUInt8

def Frame.hash (frame : Frame) : UInt64 :=
  let fields := frame.values.toList.flatMap fun p => p.1 ++ '=' :: (p.2 ++ [';'])
  let dt :=
    match frame.dtNs with
    | some dt => "__DT=".toList ++ (decimal dt ++ [';'])
    | none => []
  fnv1a64 (asBytes (fields ++ dt)) fnvOffset

namespace TestCase

def frameHashes (testCase : TestCase) : List UInt64 := testCase.frames.map Frame.hash

/-- The rolling hash of the frames so far, after each of them. -/
def rollingHashes : UInt64 → List UInt64 → List UInt64
  | _, [] => []
  | rolling, hash :: hashes =>
    let rolling := fnv1a64 (toLeBytes hash ++ [frameSeparator]) rolling
    rolling :: rollingHashes rolling hashes

def prefixHashes (testCase : TestCase) : List UInt64 := rollingHashes fnvOffset testCase.frameHashes

end TestCase

end SemantiST.Engine
