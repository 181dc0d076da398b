import MDCMotorControl.Motor.Kinematics
import Mathlib.Logic.Function.Iterate

/-!
# A ramp, tick by tick

What a number of ticks does to a motor that was started and, later, stopped.  The
frequencies it passes through are given as a sequence that satisfies the
recurrence of the tick, so that the same lemmas serve exact arithmetic, where the
sequence has a closed form, and rounded arithmetic, where it has none.

Main results:

- Theorem `launch_launched`: a profile calculation followed by a start.
- Theorems `ticks_up` and `ticks_reach`: the ticks of an acceleration, up to the one
  that reaches the target and beyond.
- Theorems `ticks_down` and `ticks_halt`: the ticks of a deceleration, up to the one
  that stops the motor.
-/

namespace MDCMotorControl
namespace Motor

open Interruptible

/-! ## The start -/

/-- `App_Motor_CalculateProfile` followed by `App_Motor_Start`, undisturbed. -/
def launch (fl : ℚ → ℚ) (targetRPM accelTimeSec : ℚ) (microsteps : BitVec 16)
    (direction : BitVec 8) (d : Drive) : Drive :=
  (appMotorStart direction).exec
    ((appMotorCalculateProfile fl targetRPM accelTimeSec microsteps).exec d)

/-- A motor at the foot of the ramp of a profile. -/
structure Launched (shaft : ShaftProfile) (d : Drive) : Prop where
  shaft_eq : d.shaft = shaft
  state : d.currentState = .accelerating
  freq : d.currentFreq = shaft.startFreq
  timer : d.timerRunning = true
  enabled : d.enPin = true
  pushed : d.frequency = some (truncToNat shaft.startFreq)

theorem appMotorCalculateProfile_exec (fl : ℚ → ℚ) (targetRPM accelTimeSec : ℚ)
    (microsteps : BitVec 16) (d : Drive) :
    (appMotorCalculateProfile fl targetRPM accelTimeSec microsteps).exec d =
      (d.onShaft (calculateProfile fl targetRPM accelTimeSec microsteps)).log .main
        (.profile targetRPM accelTimeSec microsteps) := by
  have hreturns : (profileStatements fl targetRPM accelTimeSec microsteps).Returns := trivial
  rw [appMotorCalculateProfile, Code.exec_seq hreturns, profileStatements_exec, Code.exec_stmt]

/-- A start of a motor that is stopped or still decelerating runs the guarded
statements. -/
theorem appMotorStart_exec (direction : BitVec 8) {d : Drive}
    (h : d.currentState = .stopped ∨ d.currentState = .decelerating) :
    (appMotorStart direction).exec d =
      { (startBody direction).exec
          { d.log .main (.appMotorStart direction) with startInProgress := true } with
        startInProgress := false } := by
  have hbody : (startBody direction).Returns := trivial
  have hguard : (Code.branch (fun d : Drive => d.currentState = .stopped) (startBody direction)
      (.whenever (fun d : Drive => d.currentState = .decelerating)
        (startBody direction))).Returns := hbody.branch hbody.whenever
  rw [appMotorStart, Code.block_cons, Code.stmt, Code.seq_act, Code.seq_done_left, Code.exec_act,
    Code.block_cons, Code.exec_seq hguard, Code.exec_branch, Code.block_singleton, Code.exec_stmt]
  rcases h with h | h
  · simp [Drive.log, h]
  · simp [Drive.log, h, Code.exec_whenever]

theorem launch_launched (fl : ℚ → ℚ) (targetRPM accelTimeSec : ℚ) (microsteps : BitVec 16)
    (direction : BitVec 8) {d : Drive}
    (h : d.currentState = .stopped ∨ d.currentState = .decelerating) :
    Launched (calculateProfile fl targetRPM accelTimeSec microsteps d.shaft)
      (launch fl targetRPM accelTimeSec microsteps direction d) := by
  rw [launch, appMotorCalculateProfile_exec, appMotorStart_exec direction (by exact h)]
  constructor <;>
    simp [startBody, Drive.log, Drive.onShaft, halMotorSetDirection, halMotorEnable,
      halMotorStartTimer]

/-! ## Acceleration -/

/-- `n` ticks. -/
def ticks (fl : ℚ → ℚ) (n : ℕ) (d : Drive) : Drive :=
  (appMotorKinematicTick1ms fl)^[n] d

theorem ticks_succ (fl : ℚ → ℚ) (n : ℕ) (d : Drive) :
    ticks fl (n + 1) d = appMotorKinematicTick1ms fl (ticks fl n d) :=
  Function.iterate_succ_apply' _ n d

theorem ticks_add (fl : ℚ → ℚ) (m n : ℕ) (d : Drive) :
    ticks fl (m + n) d = ticks fl m (ticks fl n d) :=
  Function.iterate_add_apply _ m n d

section Ticks

variable {fl : ℚ → ℚ} {d : Drive}

theorem tick_up (hstate : d.currentState = .accelerating)
    (hlt : d.raised fl < d.shaft.targetFreq) :
    appMotorKinematicTick1ms fl d =
      halMotorSetFrequency .tick (truncToNat (d.raised fl))
        { d with currentFreq := d.raised fl } := by
  unfold appMotorKinematicTick1ms
  rw [if_pos hstate]
  simp only [if_neg (not_le.mpr hlt)]

theorem tick_reach (hstate : d.currentState = .accelerating)
    (hle : d.shaft.targetFreq ≤ d.raised fl) :
    appMotorKinematicTick1ms fl d =
      halMotorSetFrequency .tick (truncToNat d.shaft.targetFreq)
        { d with currentFreq := d.shaft.targetFreq, currentState := .cruising } := by
  unfold appMotorKinematicTick1ms
  rw [if_pos hstate]
  simp only [if_pos hle]

theorem tick_down (hstate : d.currentState = .decelerating)
    (hlt : d.shaft.startFreq < d.lowered fl) :
    appMotorKinematicTick1ms fl d =
      halMotorSetFrequency .tick (truncToNat (d.lowered fl))
        { d with currentFreq := d.lowered fl } := by
  have hnot : d.currentState ≠ .accelerating := by simp [hstate]
  unfold appMotorKinematicTick1ms
  rw [if_neg hnot, if_pos hstate]
  simp only [if_neg (not_le.mpr hlt)]

theorem tick_halt (hstate : d.currentState = .decelerating)
    (hle : d.lowered fl ≤ d.shaft.startFreq) :
    appMotorKinematicTick1ms fl d =
      { halMotorEnable .tick false
          (halMotorStopTimer .tick { d with currentFreq := d.lowered fl }) with
        currentState := .stopped } := by
  have hnot : d.currentState ≠ .accelerating := by simp [hstate]
  unfold appMotorKinematicTick1ms
  rw [if_neg hnot, if_pos hstate]
  simp only [if_pos hle]

@[simp] theorem ticks_shaft (n : ℕ) : (ticks fl n d).shaft = d.shaft := by
  induction n with
  | zero => rfl
  | succ n ih => rw [ticks_succ, appMotorKinematicTick1ms_shaft, ih]

/-- Ticks leave a cruising motor as it is. -/
theorem ticks_cruising (hstate : d.currentState = .cruising) (n : ℕ) :
    ticks fl n d = d := by
  apply Function.iterate_fixed
  simp [appMotorKinematicTick1ms, hstate]

/-- Ticks leave a stopped motor as it is. -/
theorem ticks_stopped (hstate : d.currentState = .stopped) (n : ℕ) :
    ticks fl n d = d :=
  Function.iterate_fixed (appMotorKinematicTick1ms_of_stopped fl hstate) n

variable {f : ℕ → ℚ}

/-- The frequency that a further tick raises to. -/
theorem raised_ticks {n : ℕ} (hstep : ∀ k, f (k + 1) = fl (f k + d.shaft.accelStepPerMs))
    (hfreq : (ticks fl n d).currentFreq = f n) : (ticks fl n d).raised fl = f (n + 1) := by
  rw [Drive.raised, hfreq, ticks_shaft, hstep]

/-- As long as the frequencies stay below the target, every tick is one step up. -/
theorem ticks_up (hstate : d.currentState = .accelerating) (hfreq : d.currentFreq = f 0)
    (hstep : ∀ k, f (k + 1) = fl (f k + d.shaft.accelStepPerMs)) (n : ℕ)
    (hlt : ∀ k < n, f (k + 1) < d.shaft.targetFreq) :
    (ticks fl n d).currentState = .accelerating ∧
      (ticks fl n d).currentFreq = f n := by
  induction n with
  | zero => exact ⟨hstate, hfreq⟩
  | succ n ih =>
      obtain ⟨ihstate, ihfreq⟩ := ih fun k hk => hlt k (by omega)
      have hraised := raised_ticks hstep ihfreq
      rw [ticks_succ, tick_up ihstate]
      · simp [ihstate, hraised]
      · rw [hraised, ticks_shaft]
        exact hlt n (by omega)

/-- The tick that reaches the target, and all later ones. -/
theorem ticks_reach (hstate : d.currentState = .accelerating) (hfreq : d.currentFreq = f 0)
    (hstep : ∀ k, f (k + 1) = fl (f k + d.shaft.accelStepPerMs)) {n : ℕ}
    (hlt : ∀ k < n, f (k + 1) < d.shaft.targetFreq) (hle : d.shaft.targetFreq ≤ f (n + 1))
    {k : ℕ} (hk : n < k) :
    (ticks fl k d).currentState = .cruising ∧
      (ticks fl k d).currentFreq = d.shaft.targetFreq ∧
      (ticks fl k d).frequency = some (truncToNat d.shaft.targetFreq) := by
  obtain ⟨hstate', hfreq'⟩ := ticks_up hstate hfreq hstep n hlt
  have hraised := raised_ticks hstep hfreq'
  have hle' : (ticks fl n d).shaft.targetFreq ≤ (ticks fl n d).raised fl := by
    rw [ticks_shaft, hraised]
    exact hle
  have hreach := tick_reach hstate' hle'
  have hsplit : k = (k - (n + 1)) + (n + 1) := by omega
  rw [hsplit, ticks_add, ticks_succ, hreach, ticks_cruising]
  · simp
  · simp

/-! ## Deceleration -/

/-- The frequency that a further tick lowers to. -/
theorem lowered_ticks {n : ℕ} (hstep : ∀ k, f (k + 1) = fl (f k - d.shaft.accelStepPerMs))
    (hfreq : (ticks fl n d).currentFreq = f n) : (ticks fl n d).lowered fl = f (n + 1) := by
  rw [Drive.lowered, hfreq, ticks_shaft, hstep]

/-- As long as the frequencies stay above the start frequency, every tick is one
step down. -/
theorem ticks_down (hstate : d.currentState = .decelerating) (hfreq : d.currentFreq = f 0)
    (hstep : ∀ k, f (k + 1) = fl (f k - d.shaft.accelStepPerMs)) (n : ℕ)
    (hlt : ∀ k < n, d.shaft.startFreq < f (k + 1)) :
    (ticks fl n d).currentState = .decelerating ∧
      (ticks fl n d).currentFreq = f n := by
  induction n with
  | zero => exact ⟨hstate, hfreq⟩
  | succ n ih =>
      obtain ⟨ihstate, ihfreq⟩ := ih fun k hk => hlt k (by omega)
      have hlowered := lowered_ticks hstep ihfreq
      rw [ticks_succ, tick_down ihstate]
      · simp [ihstate, hlowered]
      · rw [hlowered, ticks_shaft]
        exact hlt n (by omega)

/-- The tick that ends the deceleration, and all later ones. -/
theorem ticks_halt (hstate : d.currentState = .decelerating) (hfreq : d.currentFreq = f 0)
    (hstep : ∀ k, f (k + 1) = fl (f k - d.shaft.accelStepPerMs)) {n : ℕ}
    (hlt : ∀ k < n, d.shaft.startFreq < f (k + 1)) (hle : f (n + 1) ≤ d.shaft.startFreq)
    {k : ℕ} (hk : n < k) :
    (ticks fl k d).currentState = .stopped ∧
      (ticks fl k d).timerRunning = false ∧
      (ticks fl k d).enPin = false := by
  obtain ⟨hstate', hfreq'⟩ := ticks_down hstate hfreq hstep n hlt
  have hlowered := lowered_ticks hstep hfreq'
  have hle' : (ticks fl n d).lowered fl ≤ (ticks fl n d).shaft.startFreq := by
    rw [ticks_shaft, hlowered]
    exact hle
  have hhalt := tick_halt hstate' hle'
  have hsplit : k = (k - (n + 1)) + (n + 1) := by omega
  rw [hsplit, ticks_add, ticks_succ, hhalt, ticks_stopped]
  · simp [halMotorEnable, halMotorStopTimer, Drive.log]
  · simp

end Ticks

end Motor
end MDCMotorControl
