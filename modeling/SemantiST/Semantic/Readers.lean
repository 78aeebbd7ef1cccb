import SemantiST.Semantic.Telemetry

/-!
# The reader that was replaced

`iterator_reference` of `fuzzer/engine/src/algorithm_regressions.rs` reads the telemetry one byte after
the other. Where the buffer ends inside a word it still reads the bytes that are there.
-/

namespace SemantiST.Semantic

open Lib

/-! ## The model -/

/-- `std::array::from_fn` over `bytes.next().unwrap_or(0)`, with what is left of the iterator. -/
def nextBytes : ℕ → List UInt8 → List UInt8 × List UInt8
  | 0, bytes => ([], bytes)
  | n + 1, bytes =>
    let (rest, left) := nextBytes n bytes.tail
    (bytes.headD 0 :: rest, left)

def u32From (order : ByteOrder) (bytes : List UInt8) : UInt32 × List UInt8 :=
  let (word, left) := nextBytes 4 bytes
  (UInt32.ofNat (order.decode word), left)

def u64From (order : ByteOrder) (bytes : List UInt8) : UInt64 × List UInt8 :=
  let (word, left) := nextBytes 8 bytes
  (UInt64.ofNat (order.decode word), left)

/-- The slots of two words each that a loop reads. -/
def slotsFrom {α : Type} (word : List UInt8 → α × List UInt8) : ℕ → List UInt8 →
    List (α × α) × List UInt8
  | 0, bytes => ([], bytes)
  | n + 1, bytes =>
    let (first, bytes) := word bytes
    let (second, bytes) := word bytes
    let (rest, bytes) := slotsFrom word n bytes
    ((first, second) :: rest, bytes)

/-- What both readers make of the words. -/
def assemble (scanCount eventCount stateCount flags : UInt32) (events : List (UInt32 × UInt32))
    (states : List (UInt64 × UInt64)) : SemanticTelemetry where
  scanCount := scanCount
  orderedRuntimeIds := events.map Prod.fst
  cycleEvents := events.filterMap fun (runtimeId, cycle) =>
    (fitsI32 cycle).map fun cycle => (runtimeId, cycle)
  stateSignatures :=
    (states.foldl (fun acc state => (signaturesOf state.1 state.2).foldl pushSignature acc) ([], [])).1
  orderedComplete := flags &&& 4 ≠ 0 ∧ flags &&& 1 = 0 ∧ eventCount.toNat ≤ telemetryEvents
  truncated := flags &&& 3 ≠ 0 ∨ telemetryEvents < eventCount.toNat ∨ telemetryStates < stateCount.toNat

def iteratorReference (order : ByteOrder) (bytes : List UInt8) : SemanticTelemetry :=
  let (scanCount, bytes) := u32From order bytes
  let (eventCount, bytes) := u32From order bytes
  let (stateCount, bytes) := u32From order bytes
  let (flags, bytes) := u32From order bytes
  let (events, bytes) := slotsFrom (u32From order) (min eventCount.toNat telemetryEvents) bytes
  let states :=
    if 0 < stateCount.toNat then
      let skip := (telemetryEvents - min eventCount.toNat telemetryEvents) * 8
      let bytes := bytes.drop skip
      (slotsFrom (u64From order) (min stateCount.toNat telemetryStates) bytes).1
    else []
  assemble scanCount eventCount stateCount flags events states

/-! ## Words at offsets -/

/-- The bytes of a word at `offset`, missing ones as zeros. -/
def paddedAt (bytes : List UInt8) (offset w : ℕ) : List UInt8 :=
  (bytes.drop offset).take w ++ List.replicate (w - (bytes.length - offset)) 0

def padded32 (order : ByteOrder) (bytes : List UInt8) (offset : ℕ) : UInt32 :=
  UInt32.ofNat (order.decode (paddedAt bytes offset 4))

def padded64 (order : ByteOrder) (bytes : List UInt8) (offset : ℕ) : UInt64 :=
  UInt64.ofNat (order.decode (paddedAt bytes offset 8))

section Words

variable {order : ByteOrder} {bytes : List UInt8} {offset w n : ℕ}

theorem nextBytes_eq (n : ℕ) (bytes : List UInt8) :
    nextBytes n bytes = (bytes.take n ++ List.replicate (n - bytes.length) 0, bytes.drop n) := by
  induction n generalizing bytes with
  | zero => simp [nextBytes]
  | succ n ih =>
    rw [nextBytes, ih]
    cases bytes with
    | nil => simp [List.replicate_succ]
    | cons b bytes => simp

theorem nextBytes_drop (w offset : ℕ) (bytes : List UInt8) :
    nextBytes w (bytes.drop offset) = (paddedAt bytes offset w, bytes.drop (offset + w)) := by
  rw [nextBytes_eq, List.length_drop, List.drop_drop]
  rfl

theorem u32From_drop (order : ByteOrder) (bytes : List UInt8) (offset : ℕ) :
    u32From order (bytes.drop offset) = (padded32 order bytes offset, bytes.drop (offset + 4)) := by
  unfold u32From
  rw [nextBytes_drop]
  rfl

theorem u64From_drop (order : ByteOrder) (bytes : List UInt8) (offset : ℕ) :
    u64From order (bytes.drop offset) = (padded64 order bytes offset, bytes.drop (offset + 8)) := by
  unfold u64From
  rw [nextBytes_drop]
  rfl

/-- The slots of a loop stand one after the other. -/
theorem slotsFrom_drop {α : Type} {word : List UInt8 → α × List UInt8} {wordAt : ℕ → α}
    (hword : ∀ offset, word (bytes.drop offset) = (wordAt offset, bytes.drop (offset + w))) (n offset : ℕ) :
    slotsFrom word n (bytes.drop offset) =
      ((List.range n).map fun slot => (wordAt (offset + slot * (2 * w)), wordAt (offset + w + slot * (2 * w))),
        bytes.drop (offset + n * (2 * w))) := by
  induction n generalizing offset with
  | zero => simp [slotsFrom]
  | succ n ih =>
    have hnext (slot : ℕ) : offset + w + w + slot * (2 * w) = offset + (slot + 1) * (2 * w) := by
      rw [Nat.add_mul slot 1 (2 * w), Nat.one_mul]
      omega
    have hsecond (slot : ℕ) :
        offset + w + w + w + slot * (2 * w) = offset + w + (slot + 1) * (2 * w) := by
      rw [Nat.add_mul slot 1 (2 * w), Nat.one_mul]
      omega
    rw [slotsFrom, hword]
    dsimp only
    rw [hword]
    dsimp only
    rw [ih, List.range_succ_eq_map, List.map_cons, List.map_map, hnext]
    simp only [hsecond, hnext, Nat.zero_mul, Nat.add_zero, Function.comp_def, Nat.succ_eq_add_one]

/-- A word that lies in the buffer or behind it is the same for both readers. -/
theorem loadAt_eq_decode (h : offset + w ≤ bytes.length ∨ bytes.length ≤ offset) :
    loadAt order bytes offset w = order.decode (paddedAt bytes offset w) := by
  unfold loadAt sliceAt paddedAt
  obtain h | h := h
  · rw [if_pos h, Nat.sub_eq_zero_of_le (by omega), List.replicate_zero, List.append_nil]
    rfl
  · rw [List.drop_of_length_le h, List.take_nil, List.nil_append, Nat.sub_eq_zero_of_le h, Nat.sub_zero,
      order.decode_replicate_zero]
    split
    · obtain rfl : w = 0 := by omega
      exact order.decode_replicate_zero 0
    · rfl

theorem u32At_eq_padded32 (h : offset + 4 ≤ bytes.length ∨ bytes.length ≤ offset) :
    u32At order bytes offset = padded32 order bytes offset := by
  unfold u32At padded32
  rw [loadAt_eq_decode h]

theorem u64At_eq_padded64 (h : offset + 8 ≤ bytes.length ∨ bytes.length ≤ offset) :
    u64At order bytes offset = padded64 order bytes offset := by
  unfold u64At padded64
  rw [loadAt_eq_decode h]

theorem u32At_eq_zero (h : bytes.length < offset + 4) : u32At order bytes offset = 0 := by
  unfold u32At loadAt sliceAt
  rw [if_neg (by omega)]
  rfl

theorem u64At_eq_zero (h : bytes.length < offset + 8) : u64At order bytes offset = 0 := by
  unfold u64At loadAt sliceAt
  rw [if_neg (by omega)]
  rfl

theorem padded64_eq_zero (h : bytes.length ≤ offset) : padded64 order bytes offset = 0 := by
  rw [← u64At_eq_padded64 (.inr h), u64At_eq_zero (by omega)]

end Words

/-! ## Both readers by their words -/

section Readers

variable (order : ByteOrder) (bytes : List UInt8)

/-- The slots of events and of states, by the words at offsets. -/
def eventsBy (word : ℕ → UInt32) (count : ℕ) : List (UInt32 × UInt32) :=
  (List.range (min count telemetryEvents)).map fun event =>
    (word (16 + event * 8), word (20 + event * 8))

def statesBy (word : ℕ → UInt64) (count : ℕ) : List (UInt64 × UInt64) :=
  (List.range (min count telemetryStates)).map fun state =>
    (word (stateBase + state * 16), word (stateBase + state * 16 + 8))

/-- A reader that gets its words at offsets. -/
def readBy (word32 : ℕ → UInt32) (word64 : ℕ → UInt64) : SemanticTelemetry :=
  assemble (word32 0) (word32 4) (word32 8) (word32 12) (eventsBy word32 (word32 4).toNat)
    (statesBy word64 (word32 8).toNat)

theorem readSemanticTelemetry_eq :
    readSemanticTelemetry order bytes = readBy (u32At order bytes) (u64At order bytes) := rfl

/-- **The iterator reads the padded words.** -/
theorem iteratorReference_eq :
    iteratorReference order bytes = readBy (padded32 order bytes) (padded64 order bytes) := by
  have hslots32 := slotsFrom_drop (u32From_drop order bytes)
  have hslots64 := slotsFrom_drop (u64From_drop order bytes)
  have hscan := u32From_drop order bytes 0
  rw [List.drop_zero] at hscan
  unfold iteratorReference
  rw [hscan]
  dsimp only
  rw [u32From_drop]
  dsimp only
  rw [u32From_drop]
  dsimp only
  rw [u32From_drop]
  dsimp only
  rw [hslots32]
  dsimp only
  rw [List.drop_drop, hslots64]
  unfold readBy eventsBy statesBy
  have hskip : 0 + 4 + 4 + 4 + 4 + min (padded32 order bytes (0 + 4)).toNat telemetryEvents * (2 * 4) +
      (telemetryEvents - min (padded32 order bytes (0 + 4)).toNat telemetryEvents) * 8 = stateBase := by
    unfold stateBase
    omega
  rw [hskip]
  congr 1
  split
  · refine List.map_congr_left fun state _ => ?_
    rw [Nat.add_right_comm stateBase 8]
  · rename_i hnone
    rw [show (padded32 order bytes 8).toNat = 0 by simpa using hnone]
    rfl

end Readers

/-! ## When the readers agree -/

/-- The signatures that states bring behind those of the states before them, up to the limit. -/
def newSignatures (before states : List (UInt64 × UInt64)) : List StateSignature :=
  let known := before.flatMap stateSignaturesOf
  ((states.flatMap stateSignaturesOf).removeAll known).eraseDups.take
    (maxExecutionStateSignatures - known.eraseDups.length)

/-- The buffer does not end inside a word that is read, or nothing comes of the bytes of that word. -/
def HarmlessCut (order : ByteOrder) (bytes : List UInt8) : Prop :=
  let eventCount := (u32At order bytes 4).toNat
  let stateCount := (u32At order bytes 8).toNat
  let size := bytes.length
  if size < 12 ∨ (16 ≤ size ∧ size < 16 + min eventCount telemetryEvents * 8) then
    padded32 order bytes (size / 4 * 4) = 0
  else if size < 16 then
    let flags := padded32 order bytes 12
    ¬(flags &&& 4 ≠ 0 ∧ flags &&& 1 = 0 ∧ eventCount ≤ telemetryEvents) ∧
      (flags &&& 3 ≠ 0 → telemetryEvents < eventCount ∨ telemetryStates < stateCount)
  else if stateBase ≤ size ∧ size < stateBase + min stateCount telemetryStates * 16 then
    let complete := (size - stateBase) / 16
    let offset := stateBase + complete * 16
    let before := (List.range complete).map fun state =>
      (u64At order bytes (stateBase + state * 16), u64At order bytes (stateBase + state * 16 + 8))
    let later := List.replicate (min stateCount telemetryStates - (complete + 1)) (0, 0)
    newSignatures before ((padded64 order bytes offset, padded64 order bytes (offset + 8)) :: later) =
      newSignatures before ((u64At order bytes offset, u64At order bytes (offset + 8)) :: later)
  else True

section Split

variable {α : Type} {f g : ℕ → α} {i n : ℕ}

theorem map_range_split (hi : i < n) : (List.range n).map f =
    (List.range i).map f ++ f i :: (List.range (n - (i + 1))).map fun j => f (i + 1 + j) := by
  obtain ⟨k, rfl⟩ : ∃ k, n = i + (1 + k) := ⟨n - (i + 1), by omega⟩
  rw [show i + (1 + k) - (i + 1) = k by omega, List.range_add, Nat.add_comm 1 k, List.range_succ_eq_map,
    List.map_append, List.map_map, List.map_cons, List.map_map]
  congr 2
  refine List.map_congr_left fun j _ => ?_
  rw [Function.comp_apply, Function.comp_apply, Nat.succ_eq_add_one, Nat.add_comm j 1, Nat.add_assoc]

/-- Lists of the values of functions that differ in one place. -/
theorem exists_map_range_split (hi : i < n) (h : ∀ j < n, j ≠ i → f j = g j) : ∃ front back,
    (List.range n).map f = front ++ f i :: back ∧ (List.range n).map g = front ++ g i :: back := by
  refine ⟨_, _, map_range_split hi, ?_⟩
  rw [map_range_split hi]
  congr 1
  · refine List.map_congr_left fun j hj => (h j ?_ ?_).symm
    · have := List.mem_range.1 hj
      omega
    · exact (List.mem_range.1 hj).ne
  · congr 1
    refine List.map_congr_left fun j hj => (h _ ?_ ?_).symm
    · have := List.mem_range.1 hj
      omega
    · omega

end Split

section Agree

variable {order : ByteOrder} {bytes : List UInt8} {offset : ℕ}

/-- Where the bytes of the last word are zeros, both readers read the same words. -/
theorem u32At_eq_padded32_of_cut (hcut : padded32 order bytes (bytes.length / 4 * 4) = 0) (j : ℕ) :
    u32At order bytes (4 * j) = padded32 order bytes (4 * j) := by
  by_cases hword : 4 * j + 4 ≤ bytes.length ∨ bytes.length ≤ 4 * j
  · exact u32At_eq_padded32 hword
  · rw [show 4 * j = bytes.length / 4 * 4 by omega, hcut, u32At_eq_zero (by omega)]

theorem eventsBy_congr {word word' : ℕ → UInt32} {count : ℕ}
    (h : ∀ slot < min count telemetryEvents, word (16 + slot * 8) = word' (16 + slot * 8) ∧
      word (20 + slot * 8) = word' (20 + slot * 8)) : eventsBy word count = eventsBy word' count := by
  refine List.map_congr_left fun slot hslot => ?_
  obtain ⟨hid, hcycle⟩ := h slot (List.mem_range.1 hslot)
  rw [hid, hcycle]

theorem statesBy_congr {word word' : ℕ → UInt64} {count : ℕ}
    (h : ∀ slot < min count telemetryStates, word (stateBase + slot * 16) = word' (stateBase + slot * 16) ∧
      word (stateBase + slot * 16 + 8) = word' (stateBase + slot * 16 + 8)) :
    statesBy word count = statesBy word' count := by
  refine List.map_congr_left fun slot hslot => ?_
  obtain ⟨hbefore, hafter⟩ := h slot (List.mem_range.1 hslot)
  rw [hbefore, hafter]

/-- A buffer that ends before the states. -/
theorem statesBy_of_short (h : bytes.length ≤ stateBase) (count : ℕ) :
    statesBy (u64At order bytes) count = statesBy (padded64 order bytes) count :=
  statesBy_congr fun slot _ =>
    ⟨u64At_eq_padded64 (.inr (by omega)), u64At_eq_padded64 (.inr (by omega))⟩

/-- An event whose words one of the readers reads as zeros. -/
theorem event_eq_of_assemble {a a' b b' c c' d d' : UInt32} {front back : List (UInt32 × UInt32)}
    {id id' cycle cycle' : UInt32} {states states' : List (UInt64 × UInt64)}
    (hzero : cycle' = 0 ∨ cycle = 0)
    (h : assemble a b c d (front ++ (id, cycle) :: back) states =
      assemble a' b' c' d' (front ++ (id', cycle') :: back) states') : id = id' ∧ cycle = cycle' := by
  unfold assemble at h
  obtain ⟨-, hids, hcycles, -⟩ := SemanticTelemetry.mk.inj h
  rw [List.map_append, List.map_append, List.append_cancel_left_eq] at hids
  rw [List.filterMap_append, List.filterMap_append, List.append_cancel_left_eq, List.filterMap_cons,
    List.filterMap_cons] at hcycles
  dsimp only at hcycles
  have hid : id = id' := (List.cons.inj hids).1
  subst hid
  refine ⟨rfl, ?_⟩
  have hfits : ∀ x : UInt32, fitsI32 x = some 0 ↔ x = 0 := by
    intro x
    unfold fitsI32
    split
    · rw [Option.some.injEq, Int.natCast_eq_zero, ← UInt32.toNat_inj]
      rfl
    · rename_i hlarge
      refine iff_of_false (by simp) ?_
      rintro rfl
      exact hlarge (by decide)
  -- an event that does not fit is not among the cycle events
  have hlength := congrArg List.length hcycles
  cases hone : fitsI32 cycle with
  | none =>
    obtain rfl | rfl := hzero
    · rw [hone, (hfits 0).2 rfl] at hlength
      simp at hlength
    · rw [(hfits 0).2 rfl] at hone
      cases hone
  | some x =>
    cases htwo : fitsI32 cycle' with
    | none =>
      rw [hone, htwo] at hlength
      simp at hlength
    | some y =>
      rw [hone, htwo] at hcycles
      have hxy : x = y := (Prod.mk.inj (List.cons.inj hcycles).1).2
      obtain rfl | rfl := hzero
      · rw [(hfits 0).2 rfl] at htwo
        rw [hxy, ← Option.some.inj htwo] at hone
        exact (hfits cycle).1 hone
      · rw [(hfits 0).2 rfl] at hone
        rw [← hxy, ← Option.some.inj hone] at htwo
        exact ((hfits cycle').1 htwo).symm

/-- What the states of a list bring to the telemetry. -/
theorem take_signatures_append (before states : List (UInt64 × UInt64)) :
    ((before ++ states).flatMap stateSignaturesOf).eraseDups.take maxExecutionStateSignatures =
      (before.flatMap stateSignaturesOf).eraseDups.take maxExecutionStateSignatures ++
        newSignatures before states := by
  rw [List.flatMap_append, List.eraseDups_append, List.take_append]
  rfl

theorem assemble_inj_states {a b c d : UInt32} {events : List (UInt32 × UInt32)}
    {before states states' : List (UInt64 × UInt64)} :
    assemble a b c d events (before ++ states) = assemble a b c d events (before ++ states') ↔
      newSignatures before states = newSignatures before states' := by
  unfold assemble
  rw [foldl_states, foldl_states, take_signatures_append, take_signatures_append]
  constructor
  · intro h
    exact List.append_cancel_left (SemanticTelemetry.mk.inj h).2.2.2.1
  · intro h
    rw [h]

/-- The states behind the one in which the buffer ends are zero. -/
theorem statesBy_split {word : ℕ → UInt64} {count complete : ℕ}
    (hcomplete : complete < min count telemetryStates)
    (hzero : ∀ offset, stateBase + (complete + 1) * 16 ≤ offset → word offset = 0) :
    statesBy word count =
      (List.range complete).map (fun state =>
        (word (stateBase + state * 16), word (stateBase + state * 16 + 8))) ++
      (word (stateBase + complete * 16), word (stateBase + complete * 16 + 8)) ::
        List.replicate (min count telemetryStates - (complete + 1)) (0, 0) := by
  unfold statesBy
  rw [map_range_split hcomplete]
  congr 2
  rw [List.eq_replicate_iff, List.length_map, List.length_range]
  refine ⟨rfl, fun state hstate => ?_⟩
  obtain ⟨j, -, rfl⟩ := List.mem_map.1 hstate
  rw [hzero _ (by omega), hzero _ (by omega)]

end Agree

section Lengths

variable {order : ByteOrder} {bytes : List UInt8}

/-- The slot of a word of the events. -/
theorem exists_slot {n count : ℕ} (hlow : 16 ≤ n) (hhigh : n < 16 + count * 8) :
    ∃ slot < count, n / 4 * 4 = 16 + slot * 8 ∨ n / 4 * 4 = 20 + slot * 8 :=
  ⟨(n - 16) / 8, by omega, by omega⟩

/-- A buffer that ends in the header or among the events. -/
theorem readers_agree_cut_iff
    (h : bytes.length < 12 ∨ (16 ≤ bytes.length ∧
      bytes.length < 16 + min (u32At order bytes 4).toNat telemetryEvents * 8)) :
    readSemanticTelemetry order bytes = iteratorReference order bytes ↔
      padded32 order bytes (bytes.length / 4 * 4) = 0 := by
  have hbase : stateBase = 16 + telemetryEvents * 8 := rfl
  have hshort : bytes.length ≤ stateBase := by omega
  rw [readSemanticTelemetry_eq, iteratorReference_eq]
  unfold readBy
  rw [statesBy_of_short hshort]
  constructor
  · intro heq
    obtain hheader | ⟨hlow, hhigh⟩ := h
    · by_cases hscan : bytes.length < 4
      · -- in the count of the scans
        have hcount := congrArg SemanticTelemetry.scanCount heq
        change u32At order bytes 0 = padded32 order bytes 0 at hcount
        rw [show bytes.length / 4 * 4 = 0 by omega, ← hcount]
        exact u32At_eq_zero (by omega)
      by_cases hevents : bytes.length < 8
      · -- in the count of the events
        have hids := congrArg (fun t => t.orderedRuntimeIds.length) heq
        simp only [assemble, eventsBy, List.length_map, List.length_range] at hids
        rw [u32At_eq_zero (by omega)] at hids
        rw [show bytes.length / 4 * 4 = 4 by omega]
        have hpos : 0 < telemetryEvents := by decide
        have hzero : (padded32 order bytes 4).toNat = 0 := by
          rw [UInt32.toNat_zero] at hids
          omega
        exact UInt32.toNat_inj.1 hzero
      · -- in the count of the states
        have hsignatures := congrArg SemanticTelemetry.stateSignatures heq
        simp only [assemble] at hsignatures
        rw [show bytes.length / 4 * 4 = 8 by omega]
        by_contra hne
        have hpos : 0 < (padded32 order bytes 8).toNat := by
          rw [Nat.pos_iff_ne_zero]
          exact fun hzero => hne (UInt32.toNat_inj.1 hzero)
        have hstates : 0 < min (padded32 order bytes 8).toNat telemetryStates :=
          lt_min hpos (by decide)
        rw [u32At_eq_zero (by omega), statesBy_split hstates fun offset hoffset =>
          padded64_eq_zero (by omega), foldl_states, foldl_states] at hsignatures
        simp only [List.range_zero, List.map_nil, List.nil_append, List.flatMap_cons, stateSignaturesOf,
          List.cons_append, List.eraseDups_cons, maxExecutionStateSignatures, List.take_succ_cons]
          at hsignatures
        cases hsignatures
    · -- among the events
      obtain ⟨slot, hslot, hcut⟩ := exists_slot hlow hhigh
      have hcount : u32At order bytes 4 = padded32 order bytes 4 := u32At_eq_padded32 (.inl (by omega))
      rw [← hcount] at heq
      obtain ⟨front, back, hread, hreference⟩ := exists_map_range_split hslot
        (f := fun event => (u32At order bytes (16 + event * 8), u32At order bytes (20 + event * 8)))
        (g := fun event => (padded32 order bytes (16 + event * 8), padded32 order bytes (20 + event * 8)))
        fun event _ hne => Prod.ext (u32At_eq_padded32 (by omega)) (u32At_eq_padded32 (by omega))
      unfold eventsBy at heq
      rw [hread, hreference] at heq
      have hcycle : u32At order bytes (20 + slot * 8) = 0 := u32At_eq_zero (by omega)
      obtain ⟨hid, hcycle'⟩ := event_eq_of_assemble (.inr hcycle) heq
      obtain hcut | hcut := hcut
      · rw [hcut, ← hid, u32At_eq_zero (by omega)]
      · rw [hcut, ← hcycle', hcycle]
  · intro hzero
    have hword := u32At_eq_padded32_of_cut hzero
    rw [hword 0, hword 1, hword 2, hword 3]
    congr 1
    exact eventsBy_congr fun slot _ => ⟨by
      rw [show 16 + slot * 8 = 4 * (4 + 2 * slot) by omega, hword], by
      rw [show 20 + slot * 8 = 4 * (5 + 2 * slot) by omega, hword]⟩

theorem flags_iff {a c : UInt32} {events : List (UInt32 × UInt32)} {states : List (UInt64 × UInt64)}
    {flags b : UInt32} : assemble a b c 0 events states = assemble a b c flags events states ↔
      ¬(flags &&& 4 ≠ 0 ∧ flags &&& 1 = 0 ∧ b.toNat ≤ telemetryEvents) ∧
        (flags &&& 3 ≠ 0 → telemetryEvents < b.toNat ∨ telemetryStates < c.toNat) := by
  have hzero (x : UInt32) : (0 : UInt32) &&& x = 0 := UInt32.zero_and
  constructor
  · intro h
    have hcomplete : decide ((0 : UInt32) &&& 4 ≠ 0 ∧ (0 : UInt32) &&& 1 = 0 ∧ b.toNat ≤ telemetryEvents) =
        decide (flags &&& 4 ≠ 0 ∧ flags &&& 1 = 0 ∧ b.toNat ≤ telemetryEvents) :=
      congrArg SemanticTelemetry.orderedComplete h
    have htruncated : decide ((0 : UInt32) &&& 3 ≠ 0 ∨ telemetryEvents < b.toNat ∨ telemetryStates < c.toNat) =
        decide (flags &&& 3 ≠ 0 ∨ telemetryEvents < b.toNat ∨ telemetryStates < c.toNat) :=
      congrArg SemanticTelemetry.truncated h
    rw [decide_eq_decide, hzero] at hcomplete htruncated
    refine ⟨fun hflags => (hcomplete.2 hflags).1 rfl, fun hflags => ?_⟩
    exact (htruncated.2 (.inl hflags)).resolve_left fun hne => hne rfl
  · intro ⟨hcomplete, htruncated⟩
    have hcomplete' : decide ((0 : UInt32) &&& 4 ≠ 0 ∧ (0 : UInt32) &&& 1 = 0 ∧ b.toNat ≤ telemetryEvents) =
        decide (flags &&& 4 ≠ 0 ∧ flags &&& 1 = 0 ∧ b.toNat ≤ telemetryEvents) := by
      rw [decide_eq_decide, hzero]
      exact ⟨fun h => absurd rfl h.1, fun h => absurd h hcomplete⟩
    have htruncated' : decide ((0 : UInt32) &&& 3 ≠ 0 ∨ telemetryEvents < b.toNat ∨ telemetryStates < c.toNat) =
        decide (flags &&& 3 ≠ 0 ∨ telemetryEvents < b.toNat ∨ telemetryStates < c.toNat) := by
      rw [decide_eq_decide, hzero]
      exact ⟨fun h => h.elim (fun hne => absurd rfl hne) .inr, fun h => h.elim (fun h => .inr (htruncated h)) .inr⟩
    unfold assemble
    rw [hcomplete', htruncated']

/-- A buffer that ends among the states. -/
theorem readers_agree_states_iff {complete : ℕ} (hlow : stateBase ≤ bytes.length)
    (hcomplete : complete = (bytes.length - stateBase) / 16)
    (hcount : complete < min (u32At order bytes 8).toNat telemetryStates) :
    readSemanticTelemetry order bytes = iteratorReference order bytes ↔
      newSignatures ((List.range complete).map fun state =>
          (u64At order bytes (stateBase + state * 16), u64At order bytes (stateBase + state * 16 + 8)))
        ((padded64 order bytes (stateBase + complete * 16),
          padded64 order bytes (stateBase + complete * 16 + 8)) ::
            List.replicate (min (u32At order bytes 8).toNat telemetryStates - (complete + 1)) (0, 0)) =
      newSignatures ((List.range complete).map fun state =>
          (u64At order bytes (stateBase + state * 16), u64At order bytes (stateBase + state * 16 + 8)))
        ((u64At order bytes (stateBase + complete * 16), u64At order bytes (stateBase + complete * 16 + 8)) ::
            List.replicate (min (u32At order bytes 8).toNat telemetryStates - (complete + 1)) (0, 0)) := by
  have hbase : stateBase = 16 + telemetryEvents * 8 := rfl
  have hword (offset : ℕ) (h : offset + 4 ≤ stateBase) :
      u32At order bytes offset = padded32 order bytes offset := u32At_eq_padded32 (.inl (by omega))
  have hevents : eventsBy (u32At order bytes) (u32At order bytes 4).toNat =
      eventsBy (padded32 order bytes) (u32At order bytes 4).toNat :=
    eventsBy_congr fun slot hslot => ⟨hword _ (by omega), hword _ (by omega)⟩
  have hbefore : ((List.range complete).map fun state =>
      (padded64 order bytes (stateBase + state * 16), padded64 order bytes (stateBase + state * 16 + 8))) =
      (List.range complete).map fun state =>
        (u64At order bytes (stateBase + state * 16), u64At order bytes (stateBase + state * 16 + 8)) := by
    refine List.map_congr_left fun state hstate => ?_
    have hlt := List.mem_range.1 hstate
    rw [u64At_eq_padded64 (.inl (by omega)), u64At_eq_padded64 (.inl (by omega))]
  rw [readSemanticTelemetry_eq, iteratorReference_eq]
  unfold readBy
  rw [← hword 0 (by omega), ← hword 4 (by omega), ← hword 8 (by omega),
    ← hword 12 (by omega), hevents,
    statesBy_split hcount fun offset hoffset => u64At_eq_zero (by omega),
    statesBy_split hcount fun offset hoffset => padded64_eq_zero (by omega), hbefore, assemble_inj_states]
  exact eq_comm

/-- **The readers agree exactly when nothing comes of a word in which the buffer ends.** -/
theorem readers_agree_iff (order : ByteOrder) (bytes : List UInt8) :
    readSemanticTelemetry order bytes = iteratorReference order bytes ↔ HarmlessCut order bytes := by
  have hbase : stateBase = 16 + telemetryEvents * 8 := rfl
  unfold HarmlessCut
  dsimp only
  split
  · rename_i hcut
    exact readers_agree_cut_iff hcut
  · rename_i hcut
    split
    · -- in the flags
      rename_i hflags
      have hword : ∀ offset, offset + 4 ≤ 12 → u32At order bytes offset = padded32 order bytes offset :=
        fun offset h => u32At_eq_padded32 (.inl (by omega))
      have hbehind : ∀ offset, 16 ≤ offset → u32At order bytes offset = padded32 order bytes offset :=
        fun offset h => u32At_eq_padded32 (.inr (by omega))
      rw [readSemanticTelemetry_eq, iteratorReference_eq]
      unfold readBy
      rw [statesBy_of_short (by omega), ← hword 0 (by omega), ← hword 4 (by omega), ← hword 8 (by omega),
        eventsBy_congr fun slot _ => ⟨hbehind (16 + slot * 8) (by omega), hbehind (20 + slot * 8) (by omega)⟩,
        u32At_eq_zero (by omega : bytes.length < 12 + 4)]
      exact flags_iff
    · split
      · rename_i hstates
        exact readers_agree_states_iff hstates.1 rfl (by omega)
      · -- behind what is read, or between the events and the states
        rename_i hflags hstates
        refine iff_of_true ?_ trivial
        have hword : ∀ offset, offset + 4 ≤ bytes.length → u32At order bytes offset =
            padded32 order bytes offset := fun offset h => u32At_eq_padded32 (.inl h)
        rw [readSemanticTelemetry_eq, iteratorReference_eq]
        unfold readBy
        rw [← hword 0 (by omega), ← hword 4 (by omega), ← hword 8 (by omega), ← hword 12 (by omega),
          eventsBy_congr fun slot hslot => ⟨hword (16 + slot * 8) (by omega), hword (20 + slot * 8) (by omega)⟩]
        by_cases hshort : bytes.length ≤ stateBase
        · rw [statesBy_of_short hshort]
        · rw [statesBy_congr fun slot hslot => ⟨u64At_eq_padded64 (.inl (by omega)),
            u64At_eq_padded64 (.inl (by omega))⟩]

/-- One byte of the count of the scans. -/
theorem readers_disagree : ¬∀ (order : ByteOrder) (bytes : List UInt8),
    readSemanticTelemetry order bytes = iteratorReference order bytes := by
  intro h
  have hread := h .little [1]
  rw [readSemanticTelemetry_eq, iteratorReference_eq] at hread
  have hcount : u32At .little [1] 0 = padded32 .little [1] 0 := congrArg SemanticTelemetry.scanCount hread
  rw [u32At_eq_zero (by decide)] at hcount
  exact absurd hcount (by decide)

end Lengths

end SemantiST.Semantic
