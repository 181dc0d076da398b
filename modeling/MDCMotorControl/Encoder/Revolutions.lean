import Mathlib.Data.Nat.Notation
import Mathlib.Tactic.Common

/-!
# Revolutions of the antenna

`app_encoder.c` measures a revolution between two zero pulses on a free-running
32-bit microsecond counter.  The counter rolls over after 71.5 minutes, which
is meant to be longer than any revolution.

Main results:

- Theorem `afterPulses_succ_succ`: the state after a pulse that ends a
  revolution.
- Theorem `cycle_registers_after_pulses`: cycle time and heartbeat after any
  number of pulses, and when the cycle time is the true one.
-/

namespace MDCMotorControl
namespace Encoder

/-! ## The encoder module -/

/-- The static variables of `app_encoder.c` and the counter of `TIM4`. -/
structure EncoderState where
  lastZPulseTick : BitVec 32
  lastRevolutionTimeMs : BitVec 16
  isFirstPulse : Bool
  lastZPulseCaptureUs : BitVec 32
  lastRevolutionTimeUs : BitVec 32
  cycleCounter : BitVec 16
  rawCount : BitVec 16
deriving DecidableEq

/-- The static initial values. -/
def initialEncoder : EncoderState where
  lastZPulseTick := 0
  lastRevolutionTimeMs := 0
  isFirstPulse := true
  lastZPulseCaptureUs := 0
  lastRevolutionTimeUs := 0
  cycleCounter := 0
  rawCount := 0

/-- `DEBUG_PrintZPulseTiming`, less its printing. -/
def debugPrintZPulseTiming (currentTick : BitVec 32) (e : EncoderState) : EncoderState :=
  if !e.isFirstPulse then
    let duration := currentTick - e.lastZPulseTick
    if 0 < duration then
      { e with
        lastRevolutionTimeMs := if 65535 < duration then 65535 else duration.setWidth 16
        lastZPulseTick := currentTick }
    else { e with lastZPulseTick := currentTick }
  else { e with isFirstPulse := false, lastZPulseTick := currentTick }

/-- What the handler of a zero pulse reads: `HAL_Encoder_GetHiresTimeUs` and
`HAL_GetTick`. -/
structure ZeroPulse where
  hiresTimeUs : BitVec 32
  tick : BitVec 32

/-- `App_Encoder_OnZeroPulse`, less its printing. -/
def appEncoderOnZeroPulse (z : ZeroPulse) (e : EncoderState) : EncoderState :=
  let e := { e with rawCount := 0 }
  let e :=
    if !e.isFirstPulse then
      { e with
        lastRevolutionTimeUs := z.hiresTimeUs - e.lastZPulseCaptureUs
        cycleCounter := e.cycleCounter + 1 }
    else { e with isFirstPulse := false }
  let e := { e with lastZPulseCaptureUs := z.hiresTimeUs }
  debugPrintZPulseTiming z.tick e

/-- `App_Encoder_GetCycleTime`. -/
def appEncoderGetCycleTime (e : EncoderState) : BitVec 16 :=
  let timeMs := e.lastRevolutionTimeUs / 1000
  if 65535 < timeMs then 65535 else timeMs.setWidth 16

/-- `App_Encoder_GetCycleCounter`. -/
def appEncoderGetCycleCounter (e : EncoderState) : BitVec 16 :=
  e.cycleCounter

/-! ## Sequences of pulses -/

/-- The state after the first `k` pulses of a sequence. -/
def afterPulses (z : ℕ → ZeroPulse) : ℕ → EncoderState
  | 0 => initialEncoder
  | k + 1 => appEncoderOnZeroPulse (z k) (afterPulses z k)

/-- The timing variables of the debug output are their own: the printing changes
nothing that is measured, and not the flag once it is down. -/
theorem debugPrintZPulseTiming_fields (tick : BitVec 32) (e : EncoderState) :
    (debugPrintZPulseTiming tick e).isFirstPulse = false ∧
    (debugPrintZPulseTiming tick e).lastZPulseCaptureUs = e.lastZPulseCaptureUs ∧
    (debugPrintZPulseTiming tick e).lastRevolutionTimeUs = e.lastRevolutionTimeUs ∧
    (debugPrintZPulseTiming tick e).cycleCounter = e.cycleCounter := by
  unfold debugPrintZPulseTiming
  cases hfirst : e.isFirstPulse with
  | true => simp
  | false =>
      simp only [Bool.not_false, if_true]
      split <;> simp

section

variable {z : ZeroPulse} {e : EncoderState}

/-- The first pulse is the reference of the next one. -/
theorem onZeroPulse_first (h : e.isFirstPulse = true) :
    (appEncoderOnZeroPulse z e).isFirstPulse = false ∧
    (appEncoderOnZeroPulse z e).lastZPulseCaptureUs = z.hiresTimeUs ∧
    (appEncoderOnZeroPulse z e).lastRevolutionTimeUs = e.lastRevolutionTimeUs ∧
    (appEncoderOnZeroPulse z e).cycleCounter = e.cycleCounter := by
  simp [appEncoderOnZeroPulse, debugPrintZPulseTiming_fields, h]

/-- Any other pulse ends a revolution. -/
theorem onZeroPulse_next (h : e.isFirstPulse = false) :
    (appEncoderOnZeroPulse z e).isFirstPulse = false ∧
    (appEncoderOnZeroPulse z e).lastZPulseCaptureUs = z.hiresTimeUs ∧
    (appEncoderOnZeroPulse z e).lastRevolutionTimeUs = z.hiresTimeUs - e.lastZPulseCaptureUs ∧
    (appEncoderOnZeroPulse z e).cycleCounter = e.cycleCounter + 1 := by
  simp [appEncoderOnZeroPulse, debugPrintZPulseTiming_fields, h]

end

section

variable (z : ℕ → ZeroPulse)

theorem afterPulses_one :
    (afterPulses z 1).isFirstPulse = false ∧
    (afterPulses z 1).lastZPulseCaptureUs = (z 0).hiresTimeUs ∧
    (afterPulses z 1).lastRevolutionTimeUs = 0 ∧
    (afterPulses z 1).cycleCounter = 0 :=
  onZeroPulse_first rfl

/-- After a pulse the flag is down and the capture is that of the pulse. -/
theorem afterPulses_succ (k : ℕ) :
    (afterPulses z (k + 1)).isFirstPulse = false ∧
    (afterPulses z (k + 1)).lastZPulseCaptureUs = (z k).hiresTimeUs := by
  induction k with
  | zero =>
      obtain ⟨hfirst, hcapture, _⟩ := afterPulses_one z
      exact ⟨hfirst, hcapture⟩
  | succ k ih =>
      obtain ⟨hfirst, hcapture, _⟩ := onZeroPulse_next (z := z (k + 1)) ih.1
      exact ⟨hfirst, hcapture⟩

/-- A pulse after another one measures the time between them and counts. -/
theorem afterPulses_succ_succ (k : ℕ) :
    (afterPulses z (k + 2)).lastRevolutionTimeUs =
      (z (k + 1)).hiresTimeUs - (z k).hiresTimeUs ∧
    (afterPulses z (k + 2)).cycleCounter = (afterPulses z (k + 1)).cycleCounter + 1 := by
  obtain ⟨hfirst, hcapture⟩ := afterPulses_succ z k
  obtain ⟨_, _, htime, hcount⟩ := onZeroPulse_next (z := z (k + 1)) hfirst
  rw [hcapture] at htime
  exact ⟨htime, hcount⟩

/-- The heartbeat counts the pulses after the first one. -/
theorem cycleCounter_afterPulses (k : ℕ) :
    (appEncoderGetCycleCounter (afterPulses z (k + 1))).toNat = k % 65536 := by
  unfold appEncoderGetCycleCounter
  induction k with
  | zero =>
      obtain ⟨_, _, _, hcount⟩ := afterPulses_one z
      rw [hcount]
      rfl
  | succ k ih =>
      rw [(afterPulses_succ_succ z k).2, BitVec.toNat_add, ih]
      have hone : (1 : BitVec 16).toNat = 1 := rfl
      omega

end

/-- A time capped to 16 bits. -/
theorem capped_toNat (d : BitVec 32) :
    (if 65535 < d then (65535 : BitVec 16) else d.setWidth 16).toNat = min d.toNat 65535 := by
  split
  · rename_i hcap
    have hcap' : 65535 < d.toNat := hcap
    rw [Nat.min_eq_right (by omega)]
    rfl
  · rename_i hcap
    have hcap' : ¬ 65535 < d.toNat := hcap
    rw [BitVec.toNat_setWidth, Nat.min_eq_left (by omega)]
    omega

/-- The register value of a revolution time. -/
theorem cycleTime_toNat (e : EncoderState) :
    (appEncoderGetCycleTime e).toNat = min (e.lastRevolutionTimeUs.toNat / 1000) 65535 := by
  have hdiv : (e.lastRevolutionTimeUs / 1000).toNat = e.lastRevolutionTimeUs.toNat / 1000 :=
    BitVec.toNat_udiv
  rw [appEncoderGetCycleTime, capped_toNat, hdiv]

/-! ## Pulses at given times -/

/-- Pulses at absolute times in microseconds, as the 32-bit counter shows them:
modulo `2 ^ 32`, which is 4294967296. -/
def pulsesAt (t : ℕ → ℕ) (tick : ℕ → BitVec 32) (i : ℕ) : ZeroPulse where
  hiresTimeUs := BitVec.ofNat 32 (t i)
  tick := tick i

/-- The measured time is the time between the pulses up to the range of the
counter. -/
theorem lastRevolutionTimeUs_pulsesAt {t : ℕ → ℕ} (tick : ℕ → BitVec 32) {k : ℕ}
    (h : t k < t (k + 1)) :
    (afterPulses (pulsesAt t tick) (k + 2)).lastRevolutionTimeUs.toNat =
      (t (k + 1) - t k) % 4294967296 := by
  rw [(afterPulses_succ_succ (pulsesAt t tick) k).1, BitVec.toNat_sub]
  simp only [pulsesAt, BitVec.toNat_ofNat]
  omega

/-- After the first of a sequence of pulses cycle time and heartbeat are zero.
After pulse `n + 1` the heartbeat is `n + 1` in 16 bits and the cycle time is the
last gap, in milliseconds and capped, in the range of the counter.  This is the
true gap exactly when the counter has not rolled over or the rest shows as the
cap. -/
theorem cycle_registers_after_pulses (t : ℕ → ℕ) (tick : ℕ → BitVec 32) (n : ℕ)
    (h : ∀ i ≤ n, t i < t (i + 1)) :
    (appEncoderGetCycleTime (afterPulses (pulsesAt t tick) 1) = 0 ∧
      appEncoderGetCycleCounter (afterPulses (pulsesAt t tick) 1) = 0) ∧
    (appEncoderGetCycleCounter (afterPulses (pulsesAt t tick) (n + 2))).toNat =
      (n + 1) % 65536 ∧
    (appEncoderGetCycleTime (afterPulses (pulsesAt t tick) (n + 2))).toNat =
      min ((t (n + 1) - t n) % 4294967296 / 1000) 65535 ∧
    ((appEncoderGetCycleTime (afterPulses (pulsesAt t tick) (n + 2))).toNat =
        min ((t (n + 1) - t n) / 1000) 65535 ↔
      t (n + 1) - t n < 4294967296 ∨ 65535000 ≤ (t (n + 1) - t n) % 4294967296) := by
  have htime : (appEncoderGetCycleTime (afterPulses (pulsesAt t tick) (n + 2))).toNat =
      min ((t (n + 1) - t n) % 4294967296 / 1000) 65535 := by
    rw [cycleTime_toNat, lastRevolutionTimeUs_pulsesAt tick (h n (Nat.le_refl n))]
  refine ⟨⟨?_, ?_⟩, cycleCounter_afterPulses _ (n + 1), htime, ?_⟩
  · obtain ⟨_, _, hzero, _⟩ := afterPulses_one (pulsesAt t tick)
    rw [appEncoderGetCycleTime, hzero]
    rfl
  · obtain ⟨_, _, _, hzero⟩ := afterPulses_one (pulsesAt t tick)
    exact hzero
  · rw [htime]
    omega

/-- Pulses one second apart. -/
theorem cycle_registers_after_pulses_seconds :
    let t : ℕ → ℕ := fun i => 1000000 * i
    let after := afterPulses (pulsesAt t fun _ => 0)
    (appEncoderGetCycleTime (after 1) = 0 ∧ appEncoderGetCycleCounter (after 1) = 0) ∧
    (appEncoderGetCycleCounter (after (4 + 2))).toNat = (4 + 1) % 65536 ∧
    (appEncoderGetCycleTime (after (4 + 2))).toNat =
      min ((t (4 + 1) - t 4) % 4294967296 / 1000) 65535 ∧
    ((appEncoderGetCycleTime (after (4 + 2))).toNat = min ((t (4 + 1) - t 4) / 1000) 65535 ↔
      t (4 + 1) - t 4 < 4294967296 ∨ 65535000 ≤ (t (4 + 1) - t 4) % 4294967296) :=
  cycle_registers_after_pulses (fun i => 1000000 * i) (fun _ => 0) 4 fun i _ => by omega

/-- Two pulses with one turn of the counter between them, 71.5 minutes: the
cycle time is 0 and not the cap. -/
theorem cycle_time_after_rollover :
    let t : ℕ → ℕ := fun i => 4294967296 * i
    (∀ i, t i < t (i + 1)) ∧
      (appEncoderGetCycleTime (afterPulses (pulsesAt t fun _ => 0) 2)).toNat = 0 ∧
      min ((t 1 - t 0) / 1000) 65535 = 65535 := by
  intro t
  refine ⟨fun i => ?_, by decide, by decide⟩
  simp only [t]
  omega

end Encoder
end MDCMotorControl
