import MDCMotorControl.Encoder.Revolutions

/-!
# The millisecond timer beside the microsecond timer

`DEBUG_PrintZPulseTiming` times a revolution on the system tick, with a time stamp of its
own.  It shares the first-pulse flag with the handler that calls it, and the handler has
cleared the flag by then.  So the branch of the debug routine for the first pulse is never
taken, and the first pulse is timed from tick zero.

Main results:

- Theorem `onZeroPulse_timed`: what a pulse does to the variables of the debug routine, the
  first one or not.
- Theorem `timersAgree_iff`: the two timers agree exactly when the first pulse comes at
  tick zero.
-/

namespace MDCMotorControl
namespace Encoder

/-- With the flag down, the debug routine takes the time since its last time stamp; in
the millisecond of the stamp it keeps the time it has. -/
theorem debugPrintZPulseTiming_timed {tick : BitVec 32} {e : EncoderState}
    (h : e.isFirstPulse = false) :
    (debugPrintZPulseTiming tick e).lastZPulseTick = tick ∧
    (tick = e.lastZPulseTick →
      (debugPrintZPulseTiming tick e).lastRevolutionTimeMs = e.lastRevolutionTimeMs) ∧
    (tick ≠ e.lastZPulseTick →
      (debugPrintZPulseTiming tick e).lastRevolutionTimeMs.toNat =
        min (tick - e.lastZPulseTick).toNat 65535) := by
  simp only [debugPrintZPulseTiming, h, Bool.not_false, if_true]
  split
  · rename_i hpos
    refine ⟨rfl, fun heq => ?_, fun _ => capped_toNat _⟩
    rw [heq, BitVec.sub_self] at hpos
    exact absurd hpos (by decide)
  · rename_i hzero
    refine ⟨rfl, fun _ => rfl, fun hne => ?_⟩
    have hduration : (tick - e.lastZPulseTick).toNat = 0 := Nat.eq_zero_of_not_pos hzero
    rw [BitVec.toNat_sub] at hduration
    exact absurd (BitVec.eq_of_toNat_eq (by omega)) hne

/-- The handler of a pulse calls the debug routine with the flag down. -/
theorem appEncoderOnZeroPulse_eq (z : ZeroPulse) (e : EncoderState) :
    ∃ e' : EncoderState, e'.isFirstPulse = false ∧ e'.lastZPulseTick = e.lastZPulseTick ∧
      e'.lastRevolutionTimeMs = e.lastRevolutionTimeMs ∧
      appEncoderOnZeroPulse z e = debugPrintZPulseTiming z.tick e' := by
  cases hfirst : e.isFirstPulse with
  | true =>
      refine ⟨{ e with
        rawCount := 0, isFirstPulse := false, lastZPulseCaptureUs := z.hiresTimeUs },
        rfl, rfl, rfl, ?_⟩
      simp [appEncoderOnZeroPulse, hfirst]
  | false =>
      refine ⟨{ e with
        rawCount := 0
        lastRevolutionTimeUs := z.hiresTimeUs - e.lastZPulseCaptureUs
        cycleCounter := e.cycleCounter + 1
        lastZPulseCaptureUs := z.hiresTimeUs }, hfirst, rfl, rfl, ?_⟩
      simp [appEncoderOnZeroPulse, hfirst]

/-- A pulse is timed from the last time stamp, whether it is the first or not. -/
theorem onZeroPulse_timed (z : ZeroPulse) (e : EncoderState) :
    (appEncoderOnZeroPulse z e).lastZPulseTick = z.tick ∧
    (z.tick = e.lastZPulseTick →
      (appEncoderOnZeroPulse z e).lastRevolutionTimeMs = e.lastRevolutionTimeMs) ∧
    (z.tick ≠ e.lastZPulseTick →
      (appEncoderOnZeroPulse z e).lastRevolutionTimeMs.toNat =
        min (z.tick - e.lastZPulseTick).toNat 65535) := by
  obtain ⟨e', hfirst, hstamp, htime, heq⟩ := appEncoderOnZeroPulse_eq z e
  rw [heq, ← hstamp, ← htime]
  exact debugPrintZPulseTiming_timed hfirst

/-- After a pulse the time stamp is that of the pulse. -/
theorem lastZPulseTick_afterPulses (z : ℕ → ZeroPulse) (k : ℕ) :
    (afterPulses z (k + 1)).lastZPulseTick = (z k).tick :=
  (onZeroPulse_timed (z k) (afterPulses z k)).1

/-- The first pulse is timed from tick zero. -/
theorem lastRevolutionTimeMs_first (z : ℕ → ZeroPulse) :
    (afterPulses z 1).lastRevolutionTimeMs.toNat = min (z 0).tick.toNat 65535 := by
  obtain ⟨-, hkept, htimed⟩ := onZeroPulse_timed (z 0) initialEncoder
  by_cases hzero : (z 0).tick = 0
  · have hms : (afterPulses z 1).lastRevolutionTimeMs = 0 := hkept hzero
    rw [hms, hzero]
    rfl
  · have hms := htimed hzero
    have hfrom : (z 0).tick - initialEncoder.lastZPulseTick = (z 0).tick := BitVec.sub_zero _
    rw [hfrom] at hms
    exact hms

/-- What the two timers of a sequence of `n + 1` pulses should show: nothing after the
first pulse, and after every later one in a new millisecond the time since the pulse
before, capped on the tick and in full on the microsecond counter. -/
structure TimersAgree (z : ℕ → ZeroPulse) (n : ℕ) : Prop where
  first : (afterPulses z 1).lastRevolutionTimeMs = 0
  later : ∀ k < n, (z (k + 1)).tick ≠ (z k).tick →
    (afterPulses z (k + 2)).lastRevolutionTimeMs.toNat =
        min ((z (k + 1)).tick.toNat - (z k).tick.toNat) 65535 ∧
      (afterPulses z (k + 2)).lastRevolutionTimeUs = (z (k + 1)).hiresTimeUs - (z k).hiresTimeUs

/-- The two timers of a sequence of pulses at ticks that do not decrease agree exactly
when the first pulse comes at tick zero. -/
theorem timersAgree_iff (z : ℕ → ZeroPulse) (n : ℕ)
    (hticks : ∀ k < n, (z k).tick ≤ (z (k + 1)).tick) :
    TimersAgree z n ↔ (z 0).tick = 0 := by
  have hfirst := lastRevolutionTimeMs_first z
  constructor
  · intro h
    have hms : 0 = min (z 0).tick.toNat 65535 := by
      rw [← hfirst, h.first]
      rfl
    apply BitVec.eq_of_toNat_eq
    show (z 0).tick.toNat = 0
    omega
  · intro hzero
    refine ⟨?_, fun k hk hne => ?_⟩
    · rw [hzero] at hfirst
      exact BitVec.eq_of_toNat_eq hfirst
    · obtain ⟨-, -, htimed⟩ := onZeroPulse_timed (z (k + 1)) (afterPulses z (k + 1))
      rw [lastZPulseTick_afterPulses] at htimed
      refine ⟨?_, (afterPulses_succ_succ z k).1⟩
      rw [← BitVec.toNat_sub_of_le (hticks k hk)]
      exact htimed hne

/-- A first pulse at tick zero and a second one after a second. -/
theorem timersAgree_iff_second :
    TimersAgree (pulsesAt (fun i => 1000000 * i) fun i => BitVec.ofNat 32 (1000 * i)) 1 :=
  (timersAgree_iff _ 1 (by decide)).mpr rfl

/-- A first pulse one and a half seconds after the start: the millisecond timer shows a
revolution that the microsecond timer does not know. -/
theorem first_pulse_timed :
    let z := pulsesAt (fun i => 1500000 + 1000000 * i) fun i => BitVec.ofNat 32 (1500 + 1000 * i)
    ¬ TimersAgree z 1 ∧ (z 0).tick ≤ (z 1).tick ∧
      (afterPulses z 1).lastRevolutionTimeMs = 1500 ∧
      (afterPulses z 1).lastRevolutionTimeUs = 0 ∧ (afterPulses z 1).cycleCounter = 0 :=
  ⟨fun h => absurd h.first (by decide), by decide, by decide, by decide, by decide⟩

end Encoder
end MDCMotorControl
