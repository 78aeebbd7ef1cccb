import SemantiST.Lib.CNumber

/-!
# The timers of the library models

`TON`, `TOF` and `TP` of `stdlib_stubs.c`, which read a virtual clock.  A timer is run over a list
of calls, the latest call first.
-/

namespace SemantiST.Symbolic

open Lib

/-! ## The model -/

/-- `__semantist_timer_semantics`: 0 and 1. -/
inductive Semantics where
  | rustyGt | iecGe
deriving DecidableEq

/-- `SemantistTimer`, with the start time that its buffer holds. -/
structure Timer where
  input : Bool := false
  preset : ℤ
  output : Bool := false
  elapsed : ℤ := 0
  signal : Bool := false
  running : Bool := false
  start : ℕ := 0
deriving DecidableEq

/-- The conversion to `uint64_t`. -/
@[irreducible] def toUInt64 (v : ℤ) : ℕ := (v % 2 ^ 64).toNat

/-- The conversion to `int64_t`. -/
@[irreducible] def toInt64 (n : ℕ) : ℤ := (n : ℤ).bmod (2 ^ 64)

def timerStart (now : ℕ) (timer : Timer) : Timer := { timer with start := now, running := true, elapsed := 0 }

def timerElapsed (now : ℕ) (timer : Timer) : Timer :=
  let elapsed := if timer.start ≤ now then now - timer.start else 0
  let elapsed := if toUInt64 timer.preset < elapsed then (if 0 < timer.preset then toUInt64 timer.preset else 0) else elapsed
  { timer with elapsed := toInt64 elapsed }

def timerReached (semantics : Semantics) (timer : Timer) : Bool :=
  if semantics = .iecGe then decide (timer.preset ≤ timer.elapsed) else decide (timer.preset < timer.elapsed)

/-- `TON` at the time `now`. -/
def ton (semantics : Semantics) (now : ℕ) (timer : Timer) : Timer :=
  let rising := timer.input && !timer.signal
  let timer :=
    if timer.input then
      if !timer.running then
        if rising then
          { timerStart now timer with output := decide (semantics = .iecGe) && decide (timer.preset = 0) }
        else { timer with output := true }
      else
        let timer := timerElapsed now timer
        { timer with output := timerReached semantics timer }
    else { timer with running := false, output := false, elapsed := 0, start := now }
  { timer with signal := timer.input }

/-- `TOF` at the time `now`. -/
def tof (semantics : Semantics) (now : ℕ) (timer : Timer) : Timer :=
  let falling := !timer.input && timer.signal
  let timer :=
    if timer.input then { timer with running := false, output := true, elapsed := 0 }
    else if falling then { timerStart now timer with output := true }
    else if timer.running then
      let timer := timerElapsed now timer
      { timer with output := !timerReached semantics timer }
    else { timer with output := false }
  { timer with signal := timer.input }

/-- `TP` at the time `now`. -/
def tp (semantics : Semantics) (now : ℕ) (timer : Timer) : Timer :=
  let rising := timer.input && !timer.signal
  let timer :=
    if rising then { timerStart now timer with output := true }
    else if timer.running then
      let timer := timerElapsed now timer
      let timer := { timer with output := !timerReached semantics timer }
      if !timer.output && !timer.input then { timer with running := false } else timer
    else { timer with output := false }
  { timer with signal := timer.input }

/-- A call: the input and the reading of the clock. -/
structure Call where
  input : Bool
  now : ℕ
deriving DecidableEq

/-- A zero-initialised instance after the calls, the latest first. -/
def run (body : ℕ → Timer → Timer) (preset : ℕ) : List Call → Timer
  | [] => { preset := preset }
  | call :: earlier => body call.now { run body preset earlier with input := call.input }

/-! ## The declared semantics -/

/-- The time that has passed reaches the preset. -/
def Expired : Semantics → ℕ → ℕ → Prop
  | .iecGe, preset, time => preset ≤ time
  | .rustyGt, preset, time => preset < time

instance : (semantics : Semantics) → (preset time : ℕ) → Decidable (Expired semantics preset time)
  | .iecGe, preset, time => inferInstanceAs (Decidable (preset ≤ time))
  | .rustyGt, preset, time => inferInstanceAs (Decidable (preset < time))

def lastInput : List Call → Bool
  | [] => false
  | call :: _ => call.input

/-- The time of the call in which the input last became true. -/
def riseTime : List Call → Option ℕ
  | [] => none
  | call :: earlier => if call.input && !lastInput earlier then some call.now else riseTime earlier

/-- The time of the call in which the input last became false. -/
def fallTime : List Call → Option ℕ
  | [] => none
  | call :: earlier => if !call.input && lastInput earlier then some call.now else fallTime earlier

/-- The start of the last pulse: a rising edge that comes when no pulse is running. -/
def pulseTime (semantics : Semantics) (preset : ℕ) : List Call → Option ℕ
  | [] => none
  | call :: earlier =>
    let pulse := pulseTime semantics preset earlier
    if call.input && !lastInput earlier && pulse.all fun start => decide (Expired semantics preset (call.now - start)) then
      some call.now
    else pulse

/-- What `TON` shall show after the calls. -/
def TonLaw (semantics : Semantics) (preset : ℕ) (timer : Timer) : List Call → Prop
  | [] => True
  | call :: earlier =>
    (call.input = false → timer.output = false ∧ timer.elapsed = 0) ∧
    (call.input = true → ∃ start ∈ riseTime (call :: earlier),
      (timer.output = true ↔ Expired semantics preset (call.now - start)) ∧
        timer.elapsed = min (call.now - start) preset)

/-- What `TOF` shall show after the calls. -/
def TofLaw (semantics : Semantics) (preset : ℕ) (timer : Timer) : List Call → Prop
  | [] => True
  | call :: earlier =>
    timer.output = true ↔ call.input = true ∨
      ∃ start ∈ fallTime (call :: earlier), ¬ Expired semantics preset (call.now - start)

/-- What `TP` shall show after the calls. -/
def TpLaw (semantics : Semantics) (preset : ℕ) (timer : Timer) : List Call → Prop
  | [] => True
  | call :: earlier =>
    timer.output = true ↔
      ∃ start ∈ pulseTime semantics preset (call :: earlier), ¬ Expired semantics preset (call.now - start)

/-! ## When the models follow it -/

/-- Under `rusty_gt` the preset is not exceeded, as the elapsed time is cut at it before it is compared. -/
def TonMeets (semantics : Semantics) (preset : ℕ) : List Call → Prop
  | [] => True
  | call :: earlier =>
    semantics = .rustyGt → call.input = true → ∀ start ∈ riseTime (call :: earlier), call.now - start ≤ preset

/-- Under `iec_ge` no call with a falling edge has a preset of zero. -/
def TofMeets (semantics : Semantics) (preset : ℕ) : List Call → Prop
  | [] => True
  | call :: earlier =>
    (semantics = .rustyGt → call.input = false → ∀ start ∈ fallTime (call :: earlier), call.now - start ≤ preset) ∧
      (semantics = .iecGe → call.input = false → lastInput earlier = true → 0 < preset)

/-- Under `iec_ge` no call comes after the end of a pulse but less than the preset after a rising
edge that fell into it. -/
def TpMeets (semantics : Semantics) (preset : ℕ) : List Call → Prop
  | [] => True
  | call :: earlier =>
    (semantics = .rustyGt → ∀ start ∈ pulseTime semantics preset (call :: earlier), call.now - start ≤ preset) ∧
      (semantics = .iecGe → (call.input = true → lastInput earlier = false → 0 < preset) ∧
        ∀ start ∈ pulseTime semantics preset (call :: earlier), ∀ rise ∈ riseTime (call :: earlier),
          preset ≤ call.now - start → preset ≤ call.now - rise)

/-! ## Elapsed time -/

variable {semantics : Semantics} {preset now : ℕ} {timer : Timer} {call : Call} {earlier history : List Call}

theorem toUInt64_cast (h : preset < 2 ^ 63) : toUInt64 preset = preset := by
  unfold toUInt64
  omega

theorem toInt64_of_lt {n : ℕ} (h : n < 2 ^ 63) : toInt64 n = n := by
  unfold toInt64
  rw [Int.bmod_eq_of_le]
  · omega
  · omega

/-- The elapsed time is cut at the preset. -/
theorem timerElapsed_eq (hpreset : timer.preset = preset) (hlt : preset < 2 ^ 63) :
    timerElapsed now timer = { timer with elapsed := (min (now - timer.start) preset : ℕ) } := by
  have hcut : (if toUInt64 timer.preset < (if timer.start ≤ now then now - timer.start else 0) then
      (if 0 < timer.preset then toUInt64 timer.preset else 0)
      else (if timer.start ≤ now then now - timer.start else 0)) = min (now - timer.start) preset := by
    rw [hpreset, toUInt64_cast hlt]
    split_ifs <;> omega
  unfold timerElapsed
  dsimp only
  rw [hcut, toInt64_of_lt (by omega)]

/-- **After the cut the comparison of `rusty_gt` never holds.** -/
theorem timerReached_timerElapsed (hpreset : timer.preset = preset) (hlt : preset < 2 ^ 63) :
    timerReached semantics (timerElapsed now timer) = true ↔ semantics = .iecGe ∧ preset ≤ now - timer.start := by
  rw [timerElapsed_eq hpreset hlt, timerReached, hpreset]
  dsimp only
  cases semantics with
  | rustyGt =>
    have hne : Semantics.rustyGt ≠ .iecGe := by decide
    rw [if_neg hne, decide_eq_true_eq]
    constructor
    · intro h
      omega
    · rintro ⟨h, -⟩
      cases h
  | iecGe =>
    rw [if_pos rfl, decide_eq_true_eq, and_iff_right rfl]
    omega

/-- The comparison of the model is the declared one precisely where `rusty_gt` does not exceed the
preset. -/
theorem model_iff_expired {time : ℕ} : ((semantics = .iecGe ∧ preset ≤ time) ↔ Expired semantics preset time) ↔
    (semantics = .rustyGt → time ≤ preset) := by
  cases semantics with
  | rustyGt =>
    rw [Expired, ← Nat.not_lt]
    simp
  | iecGe => simp [Expired]

/-! ## TON -/

structure TonState (preset : ℕ) (timer : Timer) (history : List Call) : Prop where
  constant : timer.preset = preset
  signal : timer.signal = lastInput history
  running : timer.running = lastInput history
  start : lastInput history = true → riseTime history = some timer.start

theorem tonLaw_on {start : ℕ} (hrise : riseTime (⟨true, now⟩ :: earlier) = some start) :
    TonLaw semantics preset timer (⟨true, now⟩ :: earlier) ↔
      (timer.output = true ↔ Expired semantics preset (now - start)) ∧ timer.elapsed = (min (now - start) preset : ℕ) := by
  simp [TonLaw, hrise]

theorem tonMeets_on {start : ℕ} (hrise : riseTime (⟨true, now⟩ :: earlier) = some start) :
    TonMeets semantics preset (⟨true, now⟩ :: earlier) ↔ (semantics = .rustyGt → now - start ≤ preset) := by
  simp [TonMeets, hrise]

theorem ton_rising (hsignal : timer.signal = false) (hrunning : timer.running = false) :
    ton semantics now { timer with input := true } =
      { timer with
        input := true
        start := now
        running := true
        elapsed := 0
        output := decide (semantics = .iecGe) && decide (timer.preset = 0)
        signal := true } := by
  cases timer
  cases hsignal
  cases hrunning
  rfl

theorem ton_running (hsignal : timer.signal = true) (hrunning : timer.running = true)
    (hpreset : timer.preset = preset) (hlt : preset < 2 ^ 63) :
    ton semantics now { timer with input := true } =
      { timer with
        input := true
        elapsed := (min (now - timer.start) preset : ℕ)
        output := timerReached semantics (timerElapsed now { timer with input := true })
        signal := true } := by
  have heq := @timerElapsed_eq preset now { timer with input := true } hpreset hlt
  cases timer
  cases hsignal
  cases hrunning
  rw [heq]
  exact congrArg (fun t : Timer => { t with output := timerReached semantics t, signal := true }) heq

/-- **A call of `TON`** keeps the edge memory, and shows what the law says where it meets the condition. -/
theorem ton_call (hlt : preset < 2 ^ 63) (h : TonState preset timer earlier) (call : Call) :
    TonState preset (ton semantics call.now { timer with input := call.input }) (call :: earlier) ∧
      (TonLaw semantics preset (ton semantics call.now { timer with input := call.input }) (call :: earlier) ↔
        TonMeets semantics preset (call :: earlier)) := by
  obtain ⟨hpreset, hsignal, hrunning, hstart⟩ := h
  obtain ⟨input, now⟩ := call
  dsimp only
  cases input with
  | false =>
    -- the timer is stopped
    refine ⟨⟨hpreset, rfl, rfl, fun h => by cases h⟩, iff_of_true ⟨fun _ => ⟨rfl, rfl⟩, fun h => by cases h⟩ ?_⟩
    intro _ h
    cases h
  | true =>
    cases hlast : lastInput earlier with
    | false =>
      -- a rising edge starts it
      have hrise : riseTime (⟨true, now⟩ :: earlier) = some now := by
        rw [riseTime, hlast]
        rfl
      rw [ton_rising (hsignal.trans hlast) (hrunning.trans hlast), tonLaw_on hrise, tonMeets_on hrise, Nat.sub_self, Nat.zero_min]
      refine ⟨⟨hpreset, rfl, rfl, fun _ => hrise⟩, iff_of_true ⟨?_, rfl⟩ fun _ => Nat.zero_le _⟩
      rw [hpreset, Bool.and_eq_true, decide_eq_true_eq, decide_eq_true_eq]
      cases semantics with
      | rustyGt => exact iff_of_false (fun h => by cases h.1) (Nat.not_lt_zero _)
      | iecGe =>
        rw [and_iff_right rfl, Nat.cast_eq_zero]
        exact Nat.le_zero.symm
    | true =>
      -- it is running
      have hreached := @timerReached_timerElapsed semantics preset now { timer with input := true } hpreset hlt
      have hrise : riseTime (⟨true, now⟩ :: earlier) = some timer.start := by
        rw [riseTime, hlast]
        exact hstart hlast
      rw [ton_running (hsignal.trans hlast) (hrunning.trans hlast) hpreset hlt, tonLaw_on hrise, tonMeets_on hrise]
      refine ⟨⟨hpreset, rfl, ?_, fun _ => hrise⟩, ?_⟩
      · exact hrunning.trans hlast
      · rw [hreached, and_iff_left rfl, model_iff_expired]

/-- **`TON` follows the law precisely where it meets the condition.** -/
theorem ton_follows_iff (hlt : preset < 2 ^ 63) (history : List Call) :
    TonState preset (run (ton semantics) preset history) history ∧
      (TonLaw semantics preset (run (ton semantics) preset history) history ↔ TonMeets semantics preset history) := by
  induction history with
  | nil => exact ⟨⟨rfl, rfl, rfl, fun h => by cases h⟩, Iff.rfl⟩
  | cons call earlier ih => exact ton_call hlt ih.1 call

/-! ## TOF -/

structure TofState (preset : ℕ) (timer : Timer) (history : List Call) : Prop where
  constant : timer.preset = preset
  signal : timer.signal = lastInput history
  start : lastInput history = false → fallTime history = if timer.running then some timer.start else none

theorem tof_falling (hsignal : timer.signal = true) :
    tof semantics now { timer with input := false } =
      { timer with input := false, start := now, running := true, elapsed := 0, output := true, signal := false } := by
  cases timer
  cases hsignal
  rfl

theorem tof_running (hsignal : timer.signal = false) (hrunning : timer.running = true)
    (hpreset : timer.preset = preset) (hlt : preset < 2 ^ 63) :
    tof semantics now { timer with input := false } =
      { timer with
        input := false
        elapsed := (min (now - timer.start) preset : ℕ)
        output := !timerReached semantics (timerElapsed now { timer with input := false })
        signal := false } := by
  have heq := @timerElapsed_eq preset now { timer with input := false } hpreset hlt
  cases timer
  cases hsignal
  cases hrunning
  rw [heq]
  exact congrArg (fun t : Timer => { t with output := !timerReached semantics t, signal := false }) heq

theorem tof_stopped (hsignal : timer.signal = false) (hrunning : timer.running = false) :
    tof semantics now { timer with input := false } = { timer with input := false, output := false, signal := false } := by
  cases timer
  cases hsignal
  cases hrunning
  rfl

theorem tofLaw_off : TofLaw semantics preset timer (⟨false, now⟩ :: earlier) ↔
    (timer.output = true ↔ ∃ start ∈ fallTime (⟨false, now⟩ :: earlier), ¬ Expired semantics preset (now - start)) := by
  simp [TofLaw]

theorem tofMeets_off : TofMeets semantics preset (⟨false, now⟩ :: earlier) ↔
    (semantics = .rustyGt → ∀ start ∈ fallTime (⟨false, now⟩ :: earlier), now - start ≤ preset) ∧
      (semantics = .iecGe → lastInput earlier = true → 0 < preset) := by
  simp [TofMeets]

/-- **A call of `TOF`** keeps the edge memory, and shows what the law says where it meets the condition. -/
theorem tof_call (hlt : preset < 2 ^ 63) (h : TofState preset timer earlier) (call : Call) :
    TofState preset (tof semantics call.now { timer with input := call.input }) (call :: earlier) ∧
      (TofLaw semantics preset (tof semantics call.now { timer with input := call.input }) (call :: earlier) ↔
        TofMeets semantics preset (call :: earlier)) := by
  obtain ⟨hpreset, hsignal, hstart⟩ := h
  obtain ⟨input, now⟩ := call
  dsimp only
  cases input with
  | true =>
    refine ⟨⟨hpreset, rfl, fun h => by cases h⟩, iff_of_true ?_ ?_⟩
    · exact iff_of_true rfl (.inl rfl)
    · exact ⟨(fun _ h => by cases h), (fun _ h => by cases h)⟩
  | false =>
    rw [tofLaw_off, tofMeets_off]
    cases hlast : lastInput earlier with
    | true =>
      -- a falling edge starts it
      have hfall : fallTime (⟨false, now⟩ :: earlier) = some now := by
        rw [fallTime, hlast]
        rfl
      rw [tof_falling (hsignal.trans hlast), hfall]
      refine ⟨⟨hpreset, rfl, fun _ => hfall⟩, ?_⟩
      cases semantics with
      | rustyGt => simp [Expired]
      | iecGe => simp [Expired, Nat.pos_iff_ne_zero]
    | false =>
      have hfall : fallTime (⟨false, now⟩ :: earlier) = fallTime earlier := by
        rw [fallTime, hlast]
        rfl
      have hstart := hstart hlast
      by_cases hrunning : timer.running = true
      · have hreached := @timerReached_timerElapsed semantics preset now { timer with input := false } hpreset hlt
        rw [if_pos hrunning] at hstart
        rw [tof_running (hsignal.trans hlast) hrunning hpreset hlt, hfall, hstart]
        refine ⟨⟨hpreset, rfl, fun _ => ?_⟩, ?_⟩
        · rw [hfall, hstart, if_pos hrunning]
        · have hnot : ((!timerReached semantics (timerElapsed now { timer with input := false })) = true) ↔
              ¬ (semantics = .iecGe ∧ preset ≤ now - timer.start) := by
            rw [Bool.not_eq_true', ← Bool.not_eq_true, hreached]
          rw [hnot]
          simp only [Option.mem_some_iff, exists_eq_left', forall_eq', Bool.false_eq_true, false_imp_iff, imp_true_iff,
            and_true, not_iff_not]
          exact model_iff_expired
      · rw [if_neg hrunning] at hstart
        rw [tof_stopped (hsignal.trans hlast) (Bool.not_eq_true _ |>.mp hrunning), hfall, hstart]
        refine ⟨⟨hpreset, rfl, fun _ => ?_⟩, ?_⟩
        · rw [hfall, hstart, if_neg hrunning]
        · simp

/-- **`TOF` follows the law precisely where it meets the condition.** -/
theorem tof_follows_iff (hlt : preset < 2 ^ 63) (history : List Call) :
    TofState preset (run (tof semantics) preset history) history ∧
      (TofLaw semantics preset (run (tof semantics) preset history) history ↔ TofMeets semantics preset history) := by
  induction history with
  | nil => exact ⟨⟨rfl, rfl, fun _ => rfl⟩, Iff.rfl⟩
  | cons call earlier ih => exact tof_call hlt ih.1 call

/-! ## TP -/

/-- The time of the latest call. -/
def latest : List Call → ℕ
  | [] => 0
  | call :: _ => call.now

/-- Before the first rising edge the timer is stopped; later it holds the last one, and it is stopped
only after the preset has passed. -/
structure TpState (semantics : Semantics) (preset : ℕ) (timer : Timer) (history : List Call) : Prop where
  constant : timer.preset = preset
  signal : timer.signal = lastInput history
  unstarted : riseTime history = none → timer.running = false ∧ pulseTime semantics preset history = none
  started : ∀ rise, riseTime history = some rise → timer.start = rise ∧ rise ≤ latest history ∧
    (∃ start, pulseTime semantics preset history = some start ∧ start ≤ rise) ∧
      (timer.running = true ∨ (semantics = .iecGe ∧ preset ≤ latest history - rise))

theorem tp_rising (hsignal : timer.signal = false) :
    tp semantics now { timer with input := true } =
      { timer with input := true, start := now, running := true, elapsed := 0, output := true, signal := true } := by
  cases timer
  cases hsignal
  rfl

/-- Without a rising edge a running timer compares the elapsed time. -/
theorem tp_running {input : Bool} (hedge : (input && !timer.signal) = false) (hrunning : timer.running = true)
    (hpreset : timer.preset = preset) (hlt : preset < 2 ^ 63) :
    tp semantics now { timer with input := input } =
      { timer with
        input := input
        elapsed := (min (now - timer.start) preset : ℕ)
        output := !timerReached semantics (timerElapsed now { timer with input := input })
        running := !timerReached semantics (timerElapsed now { timer with input := input }) || input
        signal := input } := by
  have heq := @timerElapsed_eq preset now { timer with input := input } hpreset hlt
  unfold tp
  dsimp only
  rw [hedge, if_neg Bool.false_ne_true, if_pos hrunning, heq]
  cases timerReached semantics
    { timer with input := input, elapsed := (min (now - timer.start) preset : ℕ) } with
  | false => rw [hrunning]; rfl
  | true =>
    cases input with
    | false => rfl
    | true => rw [hrunning]; rfl

theorem tp_stopped {input : Bool} (hedge : (input && !timer.signal) = false) (hrunning : timer.running = false) :
    tp semantics now { timer with input := input } = { timer with input := input, output := false, signal := input } := by
  unfold tp
  dsimp only
  rw [hedge, if_neg Bool.false_ne_true, if_neg (by rw [hrunning]; exact Bool.false_ne_true)]

/-- The law where the start of the pulse is known. -/
theorem tpLaw_of_pulse {input : Bool} {start : ℕ} (hpulse : pulseTime semantics preset (⟨input, now⟩ :: earlier) = some start) :
    TpLaw semantics preset timer (⟨input, now⟩ :: earlier) ↔
      (timer.output = true ↔ ¬ Expired semantics preset (now - start)) := by
  simp [TpLaw, hpulse]

theorem tpMeets_of_pulse {input : Bool} {start rise : ℕ}
    (hpulse : pulseTime semantics preset (⟨input, now⟩ :: earlier) = some start)
    (hrise : riseTime (⟨input, now⟩ :: earlier) = some rise) :
    TpMeets semantics preset (⟨input, now⟩ :: earlier) ↔
      (semantics = .rustyGt → now - start ≤ preset) ∧
        (semantics = .iecGe → (input = true → lastInput earlier = false → 0 < preset) ∧
          (preset ≤ now - start → preset ≤ now - rise)) := by
  simp [TpMeets, hpulse, hrise]

/-- **A call of `TP`** keeps the edge memory, and shows what the law says where it meets the condition. -/
theorem tp_call (hlt : preset < 2 ^ 63) (h : TpState semantics preset timer earlier) (call : Call)
    (hclock : latest earlier ≤ call.now) :
    TpState semantics preset (tp semantics call.now { timer with input := call.input }) (call :: earlier) ∧
      (TpLaw semantics preset (tp semantics call.now { timer with input := call.input }) (call :: earlier) ↔
        TpMeets semantics preset (call :: earlier)) := by
  obtain ⟨hpreset, hsignal, hunstarted, hstarted⟩ := h
  obtain ⟨input, now⟩ := call
  dsimp only at hclock ⊢
  by_cases hedge : (input && !lastInput earlier) = true
  · -- a rising edge starts or restarts it
    obtain ⟨rfl, hlast⟩ := (Bool.and_eq_true_iff).1 hedge
    have hlast : lastInput earlier = false := Bool.not_eq_true' _ |>.mp hlast
    have hrise : riseTime (⟨true, now⟩ :: earlier) = some now := by
      rw [riseTime]
      exact if_pos hedge
    rw [tp_rising (hsignal.trans hlast)]
    by_cases hover : ((pulseTime semantics preset earlier).all fun start =>
        decide (Expired semantics preset (now - start))) = true
    · have hpulse : pulseTime semantics preset (⟨true, now⟩ :: earlier) = some now := by
        rw [pulseTime]
        exact if_pos (by rw [hedge, hover, Bool.and_true])
      rw [tpLaw_of_pulse hpulse, tpMeets_of_pulse hpulse hrise]
      refine ⟨⟨hpreset, rfl, (fun h => by rw [hrise] at h; cases h), ?_⟩, ?_⟩
      · intro rise h
        cases hrise.symm.trans h
        exact ⟨rfl, le_rfl, ⟨now, hpulse, le_rfl⟩, .inl rfl⟩
      · cases semantics with
        | rustyGt => simp [Expired]
        | iecGe => simp [Expired, hlast, Nat.pos_iff_ne_zero]
    · -- the pulse that is running keeps its start
      obtain ⟨start, hstart, hactive⟩ : ∃ start, pulseTime semantics preset earlier = some start ∧
          ¬ Expired semantics preset (now - start) := by
        cases hearlier : pulseTime semantics preset earlier with
        | none =>
          rw [hearlier] at hover
          exact absurd rfl hover
        | some start =>
          rw [hearlier, Option.all_some, decide_eq_true_eq] at hover
          exact ⟨start, rfl, hover⟩
      have hle : start ≤ now := by
        cases hearlier : riseTime earlier with
        | none =>
          rw [(hunstarted hearlier).2] at hstart
          cases hstart
        | some rise =>
          obtain ⟨-, hrise', ⟨start', hstart', hle⟩, -⟩ := hstarted rise hearlier
          cases hstart.symm.trans hstart'
          omega
      have hpulse : pulseTime semantics preset (⟨true, now⟩ :: earlier) = some start := by
        rw [pulseTime, ← hstart]
        exact if_neg (by rw [hedge, Bool.true_and]; exact hover)
      rw [tpLaw_of_pulse hpulse, tpMeets_of_pulse hpulse hrise]
      refine ⟨⟨hpreset, rfl, (fun h => by rw [hrise] at h; cases h), ?_⟩, ?_⟩
      · intro rise h
        cases hrise.symm.trans h
        exact ⟨rfl, le_rfl, ⟨start, hpulse, hle⟩, .inl rfl⟩
      · rw [iff_true_left rfl, iff_true_intro hactive, true_iff]
        cases semantics with
        | rustyGt => exact ⟨fun _ => Nat.not_lt.1 hactive, fun h => by cases h⟩
        | iecGe =>
          have hactive : ¬ preset ≤ now - start := hactive
          refine ⟨(fun h => by cases h), fun _ => ⟨fun _ _ => by omega, fun h => absurd h hactive⟩⟩
  · have hrise : riseTime (⟨input, now⟩ :: earlier) = riseTime earlier := by
      rw [riseTime]
      exact if_neg hedge
    have hpulse : pulseTime semantics preset (⟨input, now⟩ :: earlier) = pulseTime semantics preset earlier := by
      rw [pulseTime]
      exact if_neg (by rw [Bool.not_eq_true _ |>.mp hedge, Bool.false_and]; exact Bool.false_ne_true)
    have hnotRising : input = true → lastInput earlier = false → False := by
      rintro rfl hlast
      exact hedge (by rw [hlast]; rfl)
    rw [← hsignal, Bool.not_eq_true] at hedge
    cases hearlier : riseTime earlier with
    | none =>
      obtain ⟨hrunning, hnone⟩ := hunstarted hearlier
      rw [tp_stopped hedge hrunning]
      refine ⟨⟨hpreset, rfl, fun _ => ⟨hrunning, hpulse.trans hnone⟩, ?_⟩, ?_⟩
      · intro rise h
        rw [hrise, hearlier] at h
        cases h
      · refine iff_of_true ?_ ⟨fun _ start h => ?_, fun _ => ⟨fun hinput hlast => (hnotRising hinput hlast).elim, fun start h => ?_⟩⟩
        · refine iff_of_false Bool.false_ne_true ?_
          rintro ⟨start, h, -⟩
          rw [hpulse, hnone] at h
          cases h
        · rw [hpulse, hnone] at h
          cases h
        · rw [hpulse, hnone] at h
          cases h
    | some rise =>
      obtain ⟨hstart, hlatest, ⟨start, hpulse', hle⟩, hrunning⟩ := hstarted rise hearlier
      have hpulse := hpulse.trans hpulse'
      have hrise := hrise.trans hearlier
      rw [tpLaw_of_pulse hpulse, tpMeets_of_pulse hpulse hrise]
      by_cases hon : timer.running = true
      · have hreached := @timerReached_timerElapsed semantics preset now { timer with input := input } hpreset hlt
        rw [tp_running hedge hon hpreset hlt]
        generalize timerReached semantics (timerElapsed now { timer with input := input }) = reached at hreached ⊢
        dsimp only at hreached ⊢
        rw [hstart] at hreached
        refine ⟨⟨hpreset, rfl, (fun h => by rw [hrise] at h; cases h), ?_⟩, ?_⟩
        · intro rise' h
          cases hrise.symm.trans h
          refine ⟨hstart, hlatest.trans hclock, ⟨start, hpulse, hle⟩, ?_⟩
          cases reached with
          | false => exact .inl rfl
          | true => exact .inr (hreached.1 rfl)
        · rw [Bool.not_eq_true', ← Bool.not_eq_true, hreached]
          cases semantics with
          | rustyGt => simp [Expired]
          | iecGe =>
            simp only [Expired, true_and, reduceCtorEq, false_imp_iff, true_imp_iff]
            constructor
            · intro h
              exact ⟨fun hinput hlast => (hnotRising hinput hlast).elim, fun hend => by omega⟩
            · rintro ⟨-, hend⟩
              omega
      · -- it was stopped at the end of the preset after the last rising edge
        obtain ⟨rfl, hover⟩ := hrunning.resolve_left hon
        rw [tp_stopped hedge (Bool.not_eq_true _ |>.mp hon)]
        refine ⟨⟨hpreset, rfl, (fun h => by rw [hrise] at h; cases h), ?_⟩, ?_⟩
        · intro rise' h
          cases hrise.symm.trans h
          refine ⟨hstart, hlatest.trans hclock, ⟨start, hpulse, hle⟩, .inr ⟨rfl, ?_⟩⟩
          exact hover.trans (Nat.sub_le_sub_right hclock rise)
        · have hend : preset ≤ now - rise := hover.trans (Nat.sub_le_sub_right hclock rise)
          refine iff_of_true (iff_of_false Bool.false_ne_true ?_) ?_
          · rw [Expired, not_not]
            omega
          · exact ⟨(fun h => by cases h), fun _ => ⟨fun hinput hlast => (hnotRising hinput hlast).elim, fun _ => hend⟩⟩

theorem latest_le (hclock : (call :: earlier).Pairwise fun later earlier => earlier.now ≤ later.now) :
    latest earlier ≤ call.now := by
  cases earlier with
  | nil => exact Nat.zero_le _
  | cons last rest => exact (List.pairwise_cons.1 hclock).1 last List.mem_cons_self

/-- **`TP` follows the law precisely where it meets the condition.** -/
theorem tp_follows_iff (hlt : preset < 2 ^ 63) (history : List Call)
    (hclock : history.Pairwise fun later earlier => earlier.now ≤ later.now) :
    TpState semantics preset (run (tp semantics) preset history) history ∧
      (TpLaw semantics preset (run (tp semantics) preset history) history ↔ TpMeets semantics preset history) := by
  induction history with
  | nil => exact ⟨⟨rfl, rfl, fun _ => ⟨rfl, rfl⟩, (fun _ h => by cases h)⟩, iff_of_true trivial trivial⟩
  | cons call earlier ih => exact tp_call hlt (ih hclock.of_cons).1 call (latest_le hclock)

/-! ## The three timers -/

/-- **The models follow the declared semantics precisely where all three meet their conditions**, for
every history of calls under a clock that does not go back. -/
theorem timers_follow_iff (semantics : Semantics) (preset : ℕ) (hlt : preset < 2 ^ 63) (history : List Call)
    (hclock : history.Pairwise fun later earlier => earlier.now ≤ later.now) :
    (TonLaw semantics preset (run (ton semantics) preset history) history ∧
        TofLaw semantics preset (run (tof semantics) preset history) history ∧
        TpLaw semantics preset (run (tp semantics) preset history) history) ↔
      TonMeets semantics preset history ∧ TofMeets semantics preset history ∧ TpMeets semantics preset history := by
  have hton := (@ton_follows_iff semantics preset hlt history).2
  have htof := (@tof_follows_iff semantics preset hlt history).2
  have htp := (@tp_follows_iff semantics preset hlt history hclock).2
  rw [hton, htof, htp]

/-- A signal of 4 ms under a preset of 3 ms. -/
def pulseOfFour : List Call := [⟨false, 8⟩, ⟨true, 4⟩, ⟨true, 1⟩]

theorem pulseOfFour_meets :
    TonMeets .iecGe 3 pulseOfFour ∧ TofMeets .iecGe 3 pulseOfFour ∧ TpMeets .iecGe 3 pulseOfFour := by
  simp [pulseOfFour, TonMeets, TofMeets, TpMeets, pulseTime, riseTime, lastInput, Expired]

theorem timers_follow_pulseOfFour :
    TonLaw .iecGe 3 (run (ton .iecGe) 3 pulseOfFour) pulseOfFour ∧
      TofLaw .iecGe 3 (run (tof .iecGe) 3 pulseOfFour) pulseOfFour ∧
      TpLaw .iecGe 3 (run (tp .iecGe) 3 pulseOfFour) pulseOfFour := by
  have hclock : pulseOfFour.Pairwise fun later earlier => earlier.now ≤ later.now := by decide
  exact (timers_follow_iff .iecGe 3 (by norm_num) pulseOfFour hclock).2 pulseOfFour_meets

/-- **Under `rusty_gt` the output of `TON` does not come**: six time units after the edge it is still
false under a preset of five. -/
theorem not_timers_follow_rustyGt :
    ¬ TonLaw .rustyGt 5 (run (ton .rustyGt) 5 [⟨true, 6⟩, ⟨true, 0⟩]) [⟨true, 6⟩, ⟨true, 0⟩] := by
  intro h
  obtain ⟨start, hstart, hfollows, -⟩ := h.2 rfl
  cases (by exact hstart : some 0 = some start)
  exact absurd (hfollows.2 (by decide)) (by decide +kernel)

end SemantiST.Symbolic
