import Mathlib.Data.Rat.Floor
import Mathlib.Tactic.Linarith
import MDCMotorControl.Library.InterruptibleCode

/-!
# The stepper drive

The motion controller of `app_motor.c` on top of the pins and the timer of
`hal_motor.c`: the static profile, the ramp state, the hardware it drives, and
a ghost trace of the calls it makes.

Float arithmetic is parametric: every float operation returns `fl` of the exact
rational result, so `fl = id` is exact arithmetic and a rounding function gives
the precision of the target.

`App_Motor_CalculateProfile`, `App_Motor_Start` and `App_Motor_Stop` run in the
main context and are given statement by statement; the 1 ms tick runs to
completion in the interrupt and is a function.

Main results:

- Theorem `appMotorKinematicTick1ms_cases`: everything one tick can do.
- Theorem `profileStatements_exec`: run undisturbed, the statements of the profile
  calculation compute `calculateProfile`.
-/

namespace MDCMotorControl
namespace Motor

open Interruptible

/-! ## Motor state and profile -/

/-- The discrete states of the motion controller, `MotorState_t`. -/
inductive MotorState where
  | stopped
  | accelerating
  | cruising
  | decelerating
deriving DecidableEq, Repr

/-- The numeric value of a state. -/
def MotorState.code : MotorState → BitVec 16
  | .stopped => 0
  | .accelerating => 1
  | .cruising => 2
  | .decelerating => 3

/-- Mechanics and kinematics, `ShaftProfile_t`. -/
structure ShaftProfile where
  microsteps : BitVec 16
  gearRatio : ℚ
  minStartRPM : ℚ
  targetRPM : ℚ
  startFreq : ℚ
  targetFreq : ℚ
  accelStepPerMs : ℚ
deriving DecidableEq

/-- The static initial profile. -/
def initialShaft : ShaftProfile where
  microsteps := 5000
  gearRatio := 3
  minStartRPM := 2
  targetRPM := 0
  startFreq := 0
  targetFreq := 0
  accelStepPerMs := 0

/-- A profile the ramp of the tick is right for. -/
structure ShaftProfile.Sound (shaft : ShaftProfile) : Prop where
  startFreq_pos : 0 < shaft.startFreq
  startFreq_lt : shaft.startFreq < shaft.targetFreq
  accelStep_pos : 0 < shaft.accelStepPerMs

/-- The truncating conversion from float to an unsigned integer. -/
def truncToNat (q : ℚ) : Nat :=
  q.floor.toNat

section Truncation

variable {q : ℚ}

theorem truncToNat_le (h : 0 ≤ q) : (truncToNat q : ℚ) ≤ q := by
  have hnonneg : 0 ≤ q.floor := Rat.le_floor_iff.mpr (by exact_mod_cast h)
  have hcast : ((truncToNat q : ℕ) : ℚ) = q.floor := by
    exact_mod_cast Int.toNat_of_nonneg hnonneg
  rw [hcast]
  exact Rat.floor_le q

theorem lt_truncToNat_add_one (q : ℚ) : q < truncToNat q + 1 := by
  have hfloor : q < q.floor + 1 := by exact_mod_cast Rat.lt_floor_add_one q
  have hle : (q.floor : ℚ) ≤ truncToNat q := by exact_mod_cast Int.self_le_toNat q.floor
  linarith

theorem le_truncToNat {n : ℕ} (h : n ≤ q) : n ≤ truncToNat q := by
  have hfloor : (n : ℤ) ≤ q.floor := Rat.le_floor_iff.mpr (by exact_mod_cast h)
  unfold truncToNat
  omega

theorem truncToNat_eq {n : ℕ} (h : n ≤ q) (h' : q < n + 1) : truncToNat q = n := by
  apply le_antisymm _ (le_truncToNat h)
  have hle := truncToNat_le ((Nat.cast_nonneg n).trans h)
  have hlt : (truncToNat q : ℚ) < ((n + 1 : ℕ) : ℚ) := by
    push_cast
    linarith
  exact Nat.lt_add_one_iff.mp (by exact_mod_cast hlt)

@[simp] theorem truncToNat_natCast (n : ℕ) : truncToNat n = n :=
  truncToNat_eq le_rfl (lt_add_one (n : ℚ))

theorem truncToNat_mono {p : ℚ} (hp : 0 ≤ p) (h : p ≤ q) : truncToNat p ≤ truncToNat q :=
  le_truncToNat ((truncToNat_le hp).trans h)

end Truncation

/-! ## Drive state and its trace -/

/-- The context a hardware call is made from. -/
inductive Context where
  | main
  | tick
deriving DecidableEq, Repr

/-- What the trace records: the calls into `hal_motor.c`, the calls of
`App_Motor_Start`, the returns of `App_Motor_CalculateProfile`, and the reset of
the processor. -/
inductive DriveCall where
  | setDirection (dir : BitVec 8)
  | enable (state : Bool)
  | setFrequency (freqHz : Nat)
  | startTimer
  | stopTimer
  | appMotorStart (direction : BitVec 8)
  | profile (targetRPM accelTimeSec : ℚ) (microsteps : BitVec 16)
  | systemReset
deriving DecidableEq

/-- One entry of the trace, stamped with the motor at the time of the call. -/
structure DriveEvent where
  context : Context
  call : DriveCall
  state : MotorState
  currentFreq : ℚ
  shaft : ShaftProfile
deriving DecidableEq

/-- The statics of `app_motor.c`, the hardware behind `hal_motor.c`, and the
ghost record of what has been called, most recent call first. -/
structure Drive where
  shaft : ShaftProfile
  currentState : MotorState
  currentFreq : ℚ
  dirPin : Bool
  enPin : Bool
  timerRunning : Bool
  arr : Nat
  ccr3 : Nat
  /-- The last argument of `HAL_Motor_SetFrequency`. -/
  frequency : Option Nat
  /-- Whether a call of `App_Motor_Start` is in progress. -/
  startInProgress : Bool
  trace : List DriveEvent
deriving DecidableEq

/-- The drive before any code has run. -/
def Drive.powerUp : Drive where
  shaft := initialShaft
  currentState := .stopped
  currentFreq := 0
  dirPin := false
  enPin := false
  timerRunning := false
  arr := 0
  ccr3 := 0
  frequency := none
  startInProgress := false
  trace := []

/-- Record a call. -/
def Drive.log (context : Context) (call : DriveCall) (d : Drive) : Drive :=
  { d with trace := ⟨context, call, d.currentState, d.currentFreq, d.shaft⟩ :: d.trace }

/-- Apply a statement of the profile calculation. -/
def Drive.onShaft (f : ShaftProfile → ShaftProfile) (d : Drive) : Drive :=
  { d with shaft := f d.shaft }

@[simp] theorem Drive.onShaft_onShaft (f g : ShaftProfile → ShaftProfile) (d : Drive) :
    (d.onShaft f).onShaft g = d.onShaft fun shaft => g (f shaft) := rfl

/-! ## Hardware layer -/

/-- The clock of TIM2 in Hz. -/
def tim2BaseFreqHz : ℚ := 84000000

/-- `HAL_Motor_SetFrequency`: a zero frequency leaves the timer as it is. -/
def halMotorSetFrequency (context : Context) (freqHz : Nat) (d : Drive) : Drive :=
  let d := { d.log context (.setFrequency freqHz) with frequency := some freqHz }
  if freqHz = 0 then d
  else
    let newArr := truncToNat (tim2BaseFreqHz / freqHz - 1)
    { d with arr := newArr, ccr3 := (newArr + 1) / 2 }

/-- `HAL_Motor_Enable`. -/
def halMotorEnable (context : Context) (state : Bool) (d : Drive) : Drive :=
  { d.log context (.enable state) with enPin := state }

/-- `HAL_Motor_SetDirection`. -/
def halMotorSetDirection (context : Context) (dir : BitVec 8) (d : Drive) : Drive :=
  { d.log context (.setDirection dir) with dirPin := dir != 0 }

/-- `HAL_Motor_StartTimer`. -/
def halMotorStartTimer (context : Context) (d : Drive) : Drive :=
  { d.log context .startTimer with timerRunning := true }

/-- `HAL_Motor_StopTimer`. -/
def halMotorStopTimer (context : Context) (d : Drive) : Drive :=
  { d.log context .stopTimer with timerRunning := false }

/-- `HAL_Motor_Init`: driver off, forward direction, timer configured but idle. -/
def halMotorInit (d : Drive) : Drive :=
  { halMotorSetDirection .main 0 (halMotorEnable .main false d) with
    arr := 0x1000, ccr3 := 0, timerRunning := false }

section Fields

variable (context : Context) (d : Drive) (n : Nat)

@[simp] theorem halMotorSetFrequency_shaft :
    (halMotorSetFrequency context n d).shaft = d.shaft := by
  unfold halMotorSetFrequency
  split <;> rfl

@[simp] theorem halMotorSetFrequency_currentState :
    (halMotorSetFrequency context n d).currentState = d.currentState := by
  unfold halMotorSetFrequency
  split <;> rfl

@[simp] theorem halMotorSetFrequency_currentFreq :
    (halMotorSetFrequency context n d).currentFreq = d.currentFreq := by
  unfold halMotorSetFrequency
  split <;> rfl

@[simp] theorem halMotorSetFrequency_enPin :
    (halMotorSetFrequency context n d).enPin = d.enPin := by
  unfold halMotorSetFrequency
  split <;> rfl

@[simp] theorem halMotorSetFrequency_timerRunning :
    (halMotorSetFrequency context n d).timerRunning = d.timerRunning := by
  unfold halMotorSetFrequency
  split <;> rfl

@[simp] theorem halMotorSetFrequency_frequency :
    (halMotorSetFrequency context n d).frequency = some n := by
  unfold halMotorSetFrequency
  split <;> rfl

@[simp] theorem halMotorSetFrequency_trace :
    (halMotorSetFrequency context n d).trace =
      ⟨context, .setFrequency n, d.currentState, d.currentFreq, d.shaft⟩ :: d.trace := by
  unfold halMotorSetFrequency
  split <;> rfl

end Fields

/-! ## Profile calculation -/

section Profile

variable (fl : ℚ → ℚ)

/-- The requested speed, raised above the minimum start speed. -/
def clampTargetRPM (shaft : ShaftProfile) (targetRPM : ℚ) : ℚ :=
  if targetRPM ≤ shaft.minStartRPM then fl (shaft.minStartRPM + fl (1 / 10))
  else targetRPM

/-- The requested ramp time, at least one millisecond. -/
def clampAccelTimeSec (accelTimeSec : ℚ) : ℚ :=
  if accelTimeSec ≤ fl (1 / 1000) then fl (1 / 1000) else accelTimeSec

/-- Below the minimum of the driver the previous microsteps are kept. -/
def ShaftProfile.setMicrosteps (microsteps : BitVec 16) (shaft : ShaftProfile) :
    ShaftProfile :=
  if 800 ≤ microsteps.toNat then { shaft with microsteps := microsteps } else shaft

/-- A speed outside the open interval from 0 to 200 RPM is ignored, and the
previous target is kept. -/
def ShaftProfile.setTargetRPM (targetRPM : ℚ) (shaft : ShaftProfile) : ShaftProfile :=
  let rpm := clampTargetRPM fl shaft targetRPM
  if 0 < rpm ∧ rpm < 200 then { shaft with targetRPM := rpm } else shaft

/-- The step frequency of a speed at the output shaft. -/
def ShaftProfile.freqOf (shaft : ShaftProfile) (rpm : ℚ) : ℚ :=
  fl (fl (fl (rpm * shaft.gearRatio) / 60) * shaft.microsteps.toNat)

def ShaftProfile.setStartFreq (shaft : ShaftProfile) : ShaftProfile :=
  { shaft with startFreq := shaft.freqOf fl shaft.minStartRPM }

def ShaftProfile.setTargetFreq (shaft : ShaftProfile) : ShaftProfile :=
  { shaft with targetFreq := shaft.freqOf fl shaft.targetRPM }

def ShaftProfile.setAccelStep (accelTimeSec : ℚ) (shaft : ShaftProfile) : ShaftProfile :=
  { shaft with
    accelStepPerMs :=
      fl (fl (shaft.targetFreq - shaft.startFreq) /
        fl (clampAccelTimeSec fl accelTimeSec * 1000)) }

/-- The three quantities of the ramp, one from the other. -/
def ShaftProfile.setRamp (accelTimeSec : ℚ) (shaft : ShaftProfile) : ShaftProfile :=
  ((shaft.setStartFreq fl).setTargetFreq fl).setAccelStep fl accelTimeSec

theorem ShaftProfile.setRamp_targetRPM (accelTimeSec : ℚ) (shaft : ShaftProfile) :
    (shaft.setRamp fl accelTimeSec).targetRPM = shaft.targetRPM := rfl

/-- `App_Motor_CalculateProfile` as a function of the profile it replaces. -/
def calculateProfile (targetRPM accelTimeSec : ℚ) (microsteps : BitVec 16)
    (shaft : ShaftProfile) : ShaftProfile :=
  ((shaft.setMicrosteps microsteps).setTargetRPM fl targetRPM).setRamp fl accelTimeSec

/-- The assignments of `App_Motor_CalculateProfile` to the static profile. -/
def profileStatements (targetRPM accelTimeSec : ℚ) (microsteps : BitVec 16) : Code Drive :=
  .block [
    .stmt (Drive.onShaft (·.setMicrosteps microsteps)),
    .stmt (Drive.onShaft (·.setTargetRPM fl targetRPM)),
    .stmt (Drive.onShaft (·.setStartFreq fl)),
    .stmt (Drive.onShaft (·.setTargetFreq fl)),
    .stmt (Drive.onShaft (·.setAccelStep fl accelTimeSec))]

/-- `App_Motor_CalculateProfile`; its return is recorded. -/
def appMotorCalculateProfile (targetRPM accelTimeSec : ℚ) (microsteps : BitVec 16) :
    Code Drive :=
  (profileStatements fl targetRPM accelTimeSec microsteps).seq
    (.stmt (Drive.log .main (.profile targetRPM accelTimeSec microsteps)))

/-- Run undisturbed, the assignments compute the profile function. -/
theorem profileStatements_exec (targetRPM accelTimeSec : ℚ) (microsteps : BitVec 16)
    (d : Drive) :
    (profileStatements fl targetRPM accelTimeSec microsteps).exec d =
      d.onShaft (calculateProfile fl targetRPM accelTimeSec microsteps) := by
  simp only [profileStatements, Code.stmt, Code.block_cons, Code.block_nil, Code.seq_act,
    Code.seq_done_left, Code.exec_act, Code.exec_done, Drive.onShaft_onShaft]
  rfl

end Profile

/-! ## Start, stop and the 1 ms tick -/

/-- The guarded statements of `App_Motor_Start`.  The state is published before
the start frequency is pushed and the timer started. -/
def startBody (direction : BitVec 8) : Code Drive :=
  .block [
    .stmt (halMotorSetDirection .main direction),
    .stmt (halMotorEnable .main true),
    .stmt (fun d => { d with currentFreq := d.shaft.startFreq }),
    .stmt (fun d => { d with currentState := .accelerating }),
    .stmt (fun d => halMotorSetFrequency .main (truncToNat d.shaft.startFreq) d),
    .stmt (halMotorStartTimer .main)]

/-- `App_Motor_Start`.  The two reads of the volatile state in its condition are
separate statements. -/
def appMotorStart (direction : BitVec 8) : Code Drive :=
  .block [
    .stmt (fun d => { d.log .main (.appMotorStart direction) with startInProgress := true }),
    .branch (·.currentState = .stopped) (startBody direction)
      (.whenever (·.currentState = .decelerating) (startBody direction)),
    .stmt (fun d => { d with startInProgress := false })]

/-- `App_Motor_Stop`, with the same two reads. -/
def appMotorStop : Code Drive :=
  let body : Code Drive := .stmt fun d => { d with currentState := .decelerating }
  .branch (·.currentState = .accelerating) body
    (.whenever (·.currentState = .cruising) body)

section Tick

variable (fl : ℚ → ℚ)

/-- The frequency one tick of acceleration leads to, before clamping. -/
def Drive.raised (d : Drive) : ℚ :=
  fl (d.currentFreq + d.shaft.accelStepPerMs)

/-- The frequency one tick of deceleration leads to. -/
def Drive.lowered (d : Drive) : ℚ :=
  fl (d.currentFreq - d.shaft.accelStepPerMs)

/-- `App_Motor_KinematicTick_1ms`. -/
def appMotorKinematicTick1ms (d : Drive) : Drive :=
  if d.currentState = .accelerating then
    let d := { d with currentFreq := d.raised fl }
    let d :=
      if d.shaft.targetFreq ≤ d.currentFreq then
        { d with currentFreq := d.shaft.targetFreq, currentState := .cruising }
      else d
    halMotorSetFrequency .tick (truncToNat d.currentFreq) d
  else if d.currentState = .decelerating then
    let d := { d with currentFreq := d.lowered fl }
    if d.currentFreq ≤ d.shaft.startFreq then
      { halMotorEnable .tick false (halMotorStopTimer .tick d) with
        currentState := .stopped }
    else halMotorSetFrequency .tick (truncToNat d.currentFreq) d
  else d

/-- The tick as the handler that preempts drive code. -/
def tickIrq (_ : Unit) : Drive → Drive :=
  appMotorKinematicTick1ms fl

/-- Everything one tick can do: nothing, one more step up, the step that reaches
the target, one more step down, or the end of the ramp. -/
inductive TickCase (d : Drive) : Drive → Prop where
  | idle (hstate : d.currentState = .stopped ∨ d.currentState = .cruising) : TickCase d d
  | up (hstate : d.currentState = .accelerating) (hlt : d.raised fl < d.shaft.targetFreq) :
      TickCase d (halMotorSetFrequency .tick (truncToNat (d.raised fl))
        { d with currentFreq := d.raised fl })
  | reach (hstate : d.currentState = .accelerating) (hle : d.shaft.targetFreq ≤ d.raised fl) :
      TickCase d (halMotorSetFrequency .tick (truncToNat d.shaft.targetFreq)
        { d with currentFreq := d.shaft.targetFreq, currentState := .cruising })
  | down (hstate : d.currentState = .decelerating) (hlt : d.shaft.startFreq < d.lowered fl) :
      TickCase d (halMotorSetFrequency .tick (truncToNat (d.lowered fl))
        { d with currentFreq := d.lowered fl })
  | halt (hstate : d.currentState = .decelerating) (hle : d.lowered fl ≤ d.shaft.startFreq) :
      TickCase d { halMotorEnable .tick false
          (halMotorStopTimer .tick { d with currentFreq := d.lowered fl }) with
        currentState := .stopped }

/-- Every tick is one of the five cases. -/
theorem appMotorKinematicTick1ms_cases (d : Drive) :
    TickCase fl d (appMotorKinematicTick1ms fl d) := by
  unfold appMotorKinematicTick1ms
  by_cases hacc : d.currentState = .accelerating
  · rw [if_pos hacc]
    by_cases hle : d.shaft.targetFreq ≤ d.raised fl
    · simp only [if_pos hle]
      exact .reach hacc hle
    · simp only [if_neg hle]
      exact .up hacc (not_le.mp hle)
  · rw [if_neg hacc]
    by_cases hdec : d.currentState = .decelerating
    · rw [if_pos hdec]
      by_cases hle : d.lowered fl ≤ d.shaft.startFreq
      · simp only [if_pos hle]
        exact .halt hdec hle
      · simp only [if_neg hle]
        exact .down hdec (not_le.mp hle)
    · rw [if_neg hdec]
      apply TickCase.idle
      cases hstate : d.currentState with
      | stopped => exact .inl rfl
      | cruising => exact .inr rfl
      | accelerating => exact absurd hstate hacc
      | decelerating => exact absurd hstate hdec

/-- A tick leaves a stopped motor alone. -/
theorem appMotorKinematicTick1ms_of_stopped {d : Drive} (h : d.currentState = .stopped) :
    appMotorKinematicTick1ms fl d = d := by
  simp [appMotorKinematicTick1ms, h]

/-- A tick never touches the profile. -/
@[simp] theorem appMotorKinematicTick1ms_shaft (d : Drive) :
    (appMotorKinematicTick1ms fl d).shaft = d.shaft := by
  obtain hcase := appMotorKinematicTick1ms_cases fl d
  generalize appMotorKinematicTick1ms fl d = d' at hcase
  cases hcase <;> simp [halMotorEnable, halMotorStopTimer, Drive.log]

end Tick

end Motor
end MDCMotorControl
