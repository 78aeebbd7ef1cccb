import SemantiST.Corpus.Records
import SemantiST.Engine.Hashes
import SemantiST.Engine.Records

/-!
# The two hashes agree

Python computes in unbounded integers with a mask, the engine in `u64`.
-/

namespace SemantiST.Corpus

open Lib

/-- The result of the corpus's parser and that of the engine's say the same. -/
structure Agrees (T : TestCase) (case : Engine.TestCase) : Prop where
  initProfile : T.initProfile = case.initProfile
  shared : T.shared = case.shared
  frames : T.frames.map Frame.data = case.frames.map Engine.Frame.data

theorem fnvPrime_toNat : Engine.fnvPrime.toNat = fnvPrime := by
  unfold Engine.fnvPrime fnvPrime
  simp

theorem fnvOffset_toNat : Engine.fnvOffset.toNat = fnvOffset := by
  unfold Engine.fnvOffset fnvOffset
  simp

/-- The mask does what the wrap does. -/
theorem fnv1a64_step (seed : UInt64) (byte : UInt8) :
    ((seed.toNat ^^^ byte.toNat) * fnvPrime) &&& 0xFFFFFFFFFFFFFFFF =
      ((seed ^^^ byte.toUInt64) * Engine.fnvPrime).toNat := by
  have hmask : (0xFFFFFFFFFFFFFFFF : ℕ) = 2 ^ 64 - 1 := by norm_num
  rw [UInt64.toNat_mul, UInt64.toNat_xor, UInt8.toNat_toUInt64, fnvPrime_toNat, hmask,
    Nat.and_two_pow_sub_one_eq_mod]

theorem fnv1a64_toNat (data : List UInt8) (seed : UInt64) :
    fnv1a64 data seed.toNat = (Engine.fnv1a64 data seed).toNat := by
  unfold fnv1a64 Engine.fnv1a64
  induction data generalizing seed with
  | nil => rfl
  | cons byte data ih => rw [List.foldl_cons, List.foldl_cons, fnv1a64_step, ih]

theorem toBytes8_toNat (n : UInt64) : toBytes8 n.toNat = Engine.toLeBytes n := by
  refine List.map_congr_left fun i hi => ?_
  have hi : i < 8 := List.mem_range.1 hi
  apply UInt8.toNat_inj.1
  have hshift : (8 * UInt64.ofNat i).toNat = 8 * i := by
    rw [UInt64.toNat_mul, UInt64.toNat_ofNat']
    have h8 : (8 : UInt64).toNat = 8 := rfl
    rw [h8]
    omega
  rw [UInt8.toNat_ofNat', UInt64.toNat_toUInt8, UInt64.toNat_shiftRight, hshift, Nat.shiftRight_eq_div_pow,
    Nat.mod_eq_of_lt (by omega : 8 * i < 64), Nat.pow_mul]

theorem hash_eq {f : Frame} {g : Engine.Frame} (h : f.data = g.data) : f.hash = g.hash.toNat := by
  obtain ⟨-, hvalues, hdt⟩ : f.index = g.index ∧ f.values = g.values ∧
      f.dtNs = g.dtNs.map Int.ofNat := by
    simpa [Frame.data, Engine.Frame.data] using h
  unfold Frame.hash Engine.Frame.hash
  rw [hvalues, hdt, ← fnvOffset_toNat, fnv1a64_toNat]
  cases g.dtNs with
  | none => rfl
  | some dt =>
    have htext : intText (Int.ofNat dt) = decimal dt := if_neg (not_lt.2 (Int.natCast_nonneg dt))
    simp only [Option.map_some, htext]
    rfl

theorem rollingHashes_eq (rolling : UInt64) (hashes : List UInt64) :
    TestCase.rollingHashes rolling.toNat (hashes.map UInt64.toNat) =
      (Engine.TestCase.rollingHashes rolling hashes).map UInt64.toNat := by
  induction hashes generalizing rolling with
  | nil => rfl
  | cons hash hashes ih =>
    have hroll : fnv1a64 (toBytes8 hash.toNat ++ [frameSeparator]) rolling.toNat =
        (Engine.fnv1a64 (Engine.toLeBytes hash ++ [Engine.frameSeparator]) rolling).toNat := by
      rw [toBytes8_toNat]
      exact fnv1a64_toNat _ rolling
    simp only [List.map_cons, TestCase.rollingHashes, Engine.TestCase.rollingHashes, hroll, ih]

/-- **Testcases that agree have the same hashes.** -/
theorem Agrees.hashes {T : TestCase} {case : Engine.TestCase} (h : Agrees T case) :
    T.frameHashes = case.frameHashes.map UInt64.toNat ∧
      T.prefixHashes = case.prefixHashes.map UInt64.toNat := by
  have hframe : T.frameHashes = case.frameHashes.map UInt64.toNat := by
    have hframes := h.frames
    unfold TestCase.frameHashes Engine.TestCase.frameHashes
    rw [List.map_map]
    generalize T.frames = fs at hframes ⊢
    generalize case.frames = gs at hframes ⊢
    induction fs generalizing gs with
    | nil =>
      cases gs with
      | nil => rfl
      | cons g gs => cases hframes
    | cons f fs ih =>
      cases gs with
      | nil => cases hframes
      | cons g gs =>
        rw [List.map_cons, List.map_cons, List.cons.injEq] at hframes
        rw [List.map_cons, List.map_cons, hash_eq hframes.1, ih gs hframes.2]
        rfl
  refine ⟨hframe, ?_⟩
  unfold TestCase.prefixHashes Engine.TestCase.prefixHashes
  rw [hframe, ← fnvOffset_toNat]
  exact rollingHashes_eq Engine.fnvOffset _

end SemantiST.Corpus
