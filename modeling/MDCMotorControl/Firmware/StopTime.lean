import MDCMotorControl.Firmware.Arbitration
import MDCMotorControl.Firmware.RampBounds
import MDCMotorControl.Library.BoundedResponse
import MDCMotorControl.Motor.RampTicks

/-!
# How long a stop takes

A stop command only changes the state of the motor; the ticks do the rest, one step
of the ramp each, while the main loop goes on with its passes.  Nothing that it does
then reaches a decelerating motor: a profile is calculated and a start is made for a
stopped motor only.

The calls that the ticks have made serve as the clock: one more for every step down,
and the stop of the timer at the bottom.

Main results:

- Theorem `slowing_tick`: a tick of a decelerating motor goes one step down or ends
  the motion.
- Theorem `settling_rules`: between the stop and the end of the motion, nothing but
  ticks changes the motion.
- Theorem `stop_within_ramp_time`: after a pass that received a stop command, the
  motor is stopped and its driver is disabled within the ramp time.
-/

namespace MDCMotorControl
namespace Firmware

open Interruptible Motor Settings Modbus Panel FlashSector

/-! ## The calls of the ticks -/

/-- What the ticks have called. -/
def tickEvents (d : Drive) : List DriveEvent :=
  d.trace.filter fun e => e.context = .tick

/-- The ends of a motion so far. -/
def halts (d : Drive) : ℕ :=
  (tickEvents d).countP fun e => e.call = .stopTimer

theorem halts_of_tickEvents {d d' : Drive} (h : tickEvents d' = tickEvents d) :
    halts d' = halts d := by
  rw [halts, h, halts]

@[simp] theorem tickEvents_log_main (call : DriveCall) (d : Drive) :
    tickEvents (d.log .main call) = tickEvents d := by
  simp [tickEvents, Drive.log]

theorem tickEvents_halMotorInit (d : Drive) : tickEvents (halMotorInit d) = tickEvents d := by
  simp [tickEvents, halMotorInit, halMotorSetDirection, halMotorEnable, Drive.log]

section

variable {fl : ℚ → ℚ} {crc : List (BitVec 32) → BitVec 32}

theorem appMotorCalculateProfile_keeps_tickEvents (rpm accel : ℚ) (microsteps : BitVec 16) :
    (appMotorCalculateProfile fl rpm accel microsteps).Keeps tickEvents :=
  .seq (.block_cons (.stmt fun _ => rfl) <|
    .block_cons (.stmt fun _ => rfl) <|
    .block_cons (.stmt fun _ => rfl) <|
    .block_cons (.stmt fun _ => rfl) <|
    .block_cons (.stmt fun _ => rfl) .block_nil) (.stmt fun _ => rfl)

theorem startBody_keeps_tickEvents (direction : BitVec 8) :
    (startBody direction).Keeps tickEvents :=
  .block_cons (.stmt fun _ => rfl) <|
    .block_cons (.stmt fun _ => rfl) <|
    .block_cons (.stmt fun _ => rfl) <|
    .block_cons (.stmt fun _ => rfl) <|
    .block_cons (.stmt fun d => by simp [tickEvents]) <|
    .block_cons (.stmt fun _ => rfl) .block_nil

theorem appMotorStart_keeps_tickEvents (direction : BitVec 8) :
    (appMotorStart direction).Keeps tickEvents :=
  .block_cons (.stmt fun _ => rfl) <|
    .block_cons (.branch (startBody_keeps_tickEvents direction)
      (.whenever (startBody_keeps_tickEvents direction))) <|
    .block_cons (.stmt fun _ => rfl) .block_nil

theorem appMotorStop_keeps_tickEvents : appMotorStop.Keeps tickEvents :=
  .branch (.stmt fun _ => rfl) (.whenever (.stmt fun _ => rfl))

/-- The main context makes no call of a tick. -/
theorem pass_keeps_tickEvents (input : PassInput) :
    (pass fl crc input).Keeps fun w => tickEvents w.drive :=
  pass_keeps_drive fl crc appMotorCalculateProfile_keeps_tickEvents
    appMotorStart_keeps_tickEvents appMotorStop_keeps_tickEvents (tickEvents_log_main _) input

/-- A motion that has ended has ended. -/
theorem halts_tick_le (d : Drive) : halts d ≤ halts (appMotorKinematicTick1ms fl d) := by
  have hcase := appMotorKinematicTick1ms_cases fl d
  generalize appMotorKinematicTick1ms fl d = d' at hcase
  cases hcase with
  | idle => exact le_rfl
  | up => simp [halts, tickEvents]
  | reach => simp [halts, tickEvents]
  | down => simp [halts, tickEvents]
  | halt => simp [halts, tickEvents, halMotorEnable, halMotorStopTimer, Drive.log]

end

/-! ## On the way down -/

/-- The motor has come from an earlier state of its deceleration by a number of
ticks. -/
structure Slowing (d₀ : Drive) (n : ℕ) (d : Drive) : Prop where
  state : d.currentState = .decelerating
  shaft : d.shaft = d₀.shaft
  halts : halts d = halts d₀
  clock : (tickEvents d).length = (tickEvents d₀).length + n
  freq : d.currentFreq = d₀.currentFreq - n * d₀.shaft.accelStepPerMs
  above : 0 < n → d₀.shaft.startFreq < d.currentFreq

/-- The motor has been at the end of a motion since, or is still on its way down. -/
def Settling (d₀ d : Drive) : Prop :=
  halts d₀ < halts d ∨ ∃ n, Slowing d₀ n d

/-- The motor is stopped, its driver disabled and its timer stopped. -/
def ShutDown (d : Drive) : Prop :=
  d.currentState = .stopped ∧ d.enPin = false ∧ d.timerRunning = false

section

variable {d₀ d : Drive} {n : ℕ}

theorem slowing_self (h : d.currentState = .decelerating) : Slowing d 0 d where
  state := h
  shaft := rfl
  halts := rfl
  clock := rfl
  freq := by simp
  above := fun hpos => absurd hpos (lt_irrefl 0)

/-- Only the motion and the calls of the ticks count. -/
theorem Slowing.of_eq (h : Slowing d₀ n d) {d' : Drive} (hstate : d'.currentState = d.currentState)
    (hshaft : d'.shaft = d.shaft) (hfreq : d'.currentFreq = d.currentFreq)
    (hevents : tickEvents d' = tickEvents d) : Slowing d₀ n d' where
  state := hstate.trans h.state
  shaft := hshaft.trans h.shaft
  halts := (halts_of_tickEvents hevents).trans h.halts
  clock := hevents ▸ h.clock
  freq := hfreq.trans h.freq
  above := hfreq ▸ h.above

/-- A tick of a decelerating motor goes one step down, or ends the motion. -/
theorem slowing_tick (h : Slowing d₀ n d) :
    Slowing d₀ (n + 1) (appMotorKinematicTick1ms id d) ∨
      halts d₀ < halts (appMotorKinematicTick1ms id d) ∧
        ShutDown (appMotorKinematicTick1ms id d) := by
  have hcase := appMotorKinematicTick1ms_cases id d
  have hlowered : d.lowered id = d₀.currentFreq - (n + 1 : ℕ) * d₀.shaft.accelStepPerMs := by
    rw [Drive.lowered, id_eq, h.freq, h.shaft]
    push_cast
    ring
  generalize appMotorKinematicTick1ms id d = d' at hcase
  cases hcase with
  | idle hstate => simp [h.state] at hstate
  | up hstate => simp [h.state] at hstate
  | reach hstate => simp [h.state] at hstate
  | down hstate hlt =>
      refine .inl ⟨by simp [h.state], by simp [h.shaft], ?_, ?_, by simpa using hlowered, ?_⟩
      · rw [← h.halts]
        simp [Firmware.halts, tickEvents]
      · rw [← add_assoc, ← h.clock]
        simp [tickEvents]
      · intro _
        simpa [← h.shaft] using hlt
  | halt =>
      refine .inr ⟨?_, rfl, rfl, rfl⟩
      rw [← h.halts]
      simp [Firmware.halts, tickEvents, halMotorEnable, halMotorStopTimer, Drive.log]

theorem Settling.halted (h : Settling d₀ d) (hstate : d.currentState ≠ .decelerating) :
    halts d₀ < halts d := by
  rcases h with hhalted | ⟨n, hslowing⟩
  · exact hhalted
  · exact absurd hslowing.state hstate

theorem settling_tickIrq (d₀ : Drive) : Stable (tickIrq id) (Settling d₀) := by
  rintro _ d (hhalted | ⟨n, hslowing⟩)
  · exact .inl (lt_of_lt_of_le hhalted (halts_tick_le d))
  · rcases slowing_tick hslowing with hnext | ⟨hhalted, _⟩
    · exact .inr ⟨n + 1, hnext⟩
    · exact .inl hhalted

theorem halted_tickIrq {fl : ℚ → ℚ} (d₀ : Drive) :
    Stable (tickIrq fl) fun d => halts d₀ < halts d :=
  fun _ d h => lt_of_lt_of_le h (halts_tick_le d)

/-- Code that makes no call of a tick does not undo the end of a motion. -/
theorem halted_triple {fl : ℚ → ℚ} {c : Code Drive} (hc : c.Keeps tickEvents) (d₀ : Drive) :
    Triple (tickIrq fl) (fun d => halts d₀ < halts d) (fun d => halts d₀ < halts d) c
      fun d => halts d₀ < halts d :=
  .of_preserves (halted_tickIrq d₀) (fun _ h => h) <|
    hc.preserves fun events =>
      halts d₀ < events.countP fun e => e.call = .stopTimer

/-! ## The main loop lets the motor slow down -/

/-- A profile calculation leaves the state alone. -/
theorem appMotorCalculateProfile_stopped (rpm accel : ℚ) (microsteps : BitVec 16) :
    (appMotorCalculateProfile id rpm accel microsteps).Preserves
      fun d => d.currentState = .stopped :=
  ⟨fun _ h => h, fun _ h => h, fun _ h => h, fun _ h => h, fun _ h => h, fun _ h => h, trivial⟩

/-- A start of a stopped motor after the end of the motion. -/
theorem appMotorStart_halted (direction : BitVec 8) :
    Triple (tickIrq id) (Settling d₀)
      (fun d => halts d₀ < halts d ∧ d.currentState = .stopped) (appMotorStart direction)
      fun d => halts d₀ < halts d ∧ Moving d := by
  have hbody : Triple (tickIrq id) (Settling d₀)
      (fun d => halts d₀ < halts d ∧ d.currentState = .stopped) (startBody direction)
      fun d => halts d₀ < halts d ∧ Moving d := by
    intro d hd
    exact wp_mono (fun _ h => .inl h.1) (fun _ h => ⟨h.1, h.2.2⟩) (wp_and
      (halted_triple (startBody_keeps_tickEvents direction) d₀ d hd.1)
      (startBody_pins direction d hd.2))
  exact appMotorStart_of_stopped direction ((halted_tickIrq d₀).and stopped_tickIrq)
    (fun _ h => .inl h.1) (fun _ h => h.2) (fun _ h => h) (.stmt fun _ h => h)
    ((halted_tickIrq d₀).and moving_tickIrq) (fun _ h => .inl h.1) hbody

/-- Between the stop and the end of the motion, nothing but ticks changes the
motion. -/
theorem settling_rules (d₀ : Drive) :
    DriveRules id (Settling d₀) (Settling d₀) (Settling d₀) where
  stable := settling_tickIrq d₀
  stable_prepared := settling_tickIrq d₀
  imp := fun _ h => h
  imp_prepared := fun _ h => h
  init := fun d h hstopped => by
    rw [Settling, halts_of_tickEvents (tickEvents_halMotorInit d)]
    exact .inl (h.halted (by simp [hstopped]))
  reset := fun d h => by
    rcases h with hhalted | ⟨n, hslowing⟩
    · rw [Settling, halts_of_tickEvents (tickEvents_log_main _ d)]
      exact .inl hhalted
    · exact .inr ⟨n, hslowing.of_eq rfl rfl rfl (tickEvents_log_main _ d)⟩
  prepare := fun rpm accel microsteps => by
    have hprofile : Triple (tickIrq id) (fun d => halts d₀ < halts d)
        (fun d => halts d₀ < halts d) (appMotorCalculateProfile id rpm accel microsteps) _ :=
      halted_triple (appMotorCalculateProfile_keeps_tickEvents _ _ _) d₀
    have hstopped : Triple (tickIrq id) (fun _ => True) (fun d => d.currentState = .stopped)
        (appMotorCalculateProfile id rpm accel microsteps) fun d => d.currentState = .stopped :=
      .of_preserves stopped_tickIrq (fun _ _ => trivial) (appMotorCalculateProfile_stopped _ _ _)
    intro d hd
    exact wp_mono (fun _ h => .inl h.1) (fun _ h => ⟨.inl h.1, h.2⟩)
      (wp_and (hprofile d (hd.1.halted (by simp [hd.2]))) (hstopped d hd.2))
  start := fun direction => (appMotorStart_halted direction).conseq
    (fun d hd => ⟨hd.1.halted (by simp [hd.2]), hd.2⟩) fun _ hd => ⟨.inl hd.1, hd.2⟩
  stop := by
    have hmoving : ∀ d, Settling d₀ d ∧ Moving d → halts d₀ < halts d :=
      fun d hd => hd.1.halted (by rcases hd.2 with h | h <;> simp [h])
    exact appMotorStop_of_moving ((settling_tickIrq d₀).and moving_tickIrq) (fun _ h => h.1)
      (fun _ h => h.2) ((settling_tickIrq d₀).and ending_tickIrq) (fun _ h => h.1)
      fun d hd => ⟨.inl (hmoving d hd), .inl rfl⟩

end

/-! ## The ramp time -/

/-- The ramp time of the last profile calculation. -/
def lastRampTime (d : Drive) : Option ℚ :=
  d.trace.findSome? fun e =>
    match e.call with
    | .profile _ accelTimeSec _ => some accelTimeSec
    | _ => none

/-- The steps of the ramp add up to the range of the frequencies in the ramp time. -/
def RampTimed (d : Drive) : Prop :=
  ∀ t ∈ lastRampTime d, d.shaft.accelStepPerMs * (clampAccelTimeSec id t * 1000) =
    d.shaft.targetFreq - d.shaft.startFreq

theorem RampTimed.of_eq {d d' : Drive} (h : RampTimed d) (hshaft : d'.shaft = d.shaft)
    (htime : lastRampTime d' = lastRampTime d) : RampTimed d' := by
  rw [RampTimed, hshaft, htime]
  exact h

theorem rampTimed_tickIrq : Stable (tickIrq id) RampTimed := by
  intro _ d h
  refine h.of_eq (appMotorKinematicTick1ms_shaft id d) ?_
  have hcase := appMotorKinematicTick1ms_cases id d
  show lastRampTime (appMotorKinematicTick1ms id d) = lastRampTime d
  generalize appMotorKinematicTick1ms id d = d' at hcase
  cases hcase <;> simp [lastRampTime, halMotorEnable, halMotorStopTimer, Drive.log]

theorem calculateProfile_accelStep (rpm accel : ℚ) (microsteps : BitVec 16)
    (shaft : ShaftProfile) :
    let new := calculateProfile id rpm accel microsteps shaft
    new.accelStepPerMs * (clampAccelTimeSec id accel * 1000) = new.targetFreq - new.startFreq := by
  intro new
  have hpos := clampAccelTimeSec_pos accel
  have hne : clampAccelTimeSec id accel * 1000 ≠ 0 := by positivity
  exact div_mul_cancel₀ (new.targetFreq - new.startFreq) hne

/-- A profile calculation leaves a step for the ramp time that it was given. -/
theorem rampTimed_prepare (rpm accel : ℚ) (microsteps : BitVec 16) :
    Triple (tickIrq id) (fun _ => True) (fun d => RampTimed d ∧ d.currentState = .stopped)
      (appMotorCalculateProfile id rpm accel microsteps)
      fun d => RampTimed d ∧ d.currentState = .stopped := by
  rintro d₀ ⟨_, hstopped⟩
  have hexec := Triple.exec_of_fixed (F := fun d => d.currentState = .stopped)
    (c := appMotorCalculateProfile id rpm accel microsteps)
    (fun i d hd => (appMotorKinematicTick1ms_of_stopped id hd : tickIrq id i d = d))
    (appMotorCalculateProfile_stopped rpm accel microsteps) hstopped d₀ rfl
  have hstable : Stable (tickIrq id) fun d => RampTimed d ∧ d.currentState = .stopped :=
    rampTimed_tickIrq.and stopped_tickIrq
  refine wp_mono (fun _ _ => trivial) (fun d hd => ?_) hexec
  subst hd
  rw [appMotorCalculateProfile_exec]
  refine ⟨fun t ht => ?_, hstopped⟩
  obtain rfl : accel = t := Option.some.inj ht
  exact calculateProfile_accelStep rpm accel microsteps d₀.shaft

/-- What the ramp time depends on. -/
def rampTiming (d : Drive) : ShaftProfile × Option ℚ :=
  (d.shaft, lastRampTime d)

theorem rampTimed_of_timing {d d' : Drive} (h : RampTimed d)
    (htiming : rampTiming d' = rampTiming d) : RampTimed d' :=
  h.of_eq (congrArg Prod.fst htiming) (congrArg Prod.snd htiming)

theorem startBody_keeps_rampTiming (direction : BitVec 8) :
    (startBody direction).Keeps rampTiming :=
  .block_cons (.stmt fun _ => rfl) <|
    .block_cons (.stmt fun _ => rfl) <|
    .block_cons (.stmt fun _ => rfl) <|
    .block_cons (.stmt fun _ => rfl) <|
    .block_cons (.stmt fun d => by simp [rampTiming, lastRampTime]) <|
    .block_cons (.stmt fun _ => rfl) .block_nil

theorem rampTimed_start (direction : BitVec 8) :
    Triple (tickIrq id) (fun _ => True) (fun d => RampTimed d ∧ d.currentState = .stopped)
      (appMotorStart direction) fun d => RampTimed d ∧ Moving d := by
  have hbody : Triple (tickIrq id) (fun _ => True)
      (fun d => RampTimed d ∧ d.currentState = .stopped) (startBody direction)
      fun d => RampTimed d ∧ Moving d := by
    have hkeeps : (startBody direction).Preserves RampTimed :=
      (startBody_keeps_rampTiming direction).preserves fun timing => ∀ t ∈ timing.2,
        timing.1.accelStepPerMs * (clampAccelTimeSec id t * 1000) =
          timing.1.targetFreq - timing.1.startFreq
    have htimed : Triple (tickIrq id) (fun _ => True) RampTimed (startBody direction) RampTimed :=
      .of_preserves rampTimed_tickIrq (fun _ _ => trivial) hkeeps
    exact fun d hd => wp_mono (fun _ _ => trivial) (fun _ h => ⟨h.1, h.2.2⟩)
      (wp_and (htimed d hd.1) (startBody_pins direction d hd.2))
  exact appMotorStart_of_stopped direction (rampTimed_tickIrq.and stopped_tickIrq)
    (fun _ _ => trivial) (fun _ h => h.2) (fun _ h => ⟨rampTimed_of_timing h.1 rfl, h.2⟩)
    (.stmt fun _ h => ⟨rampTimed_of_timing h.1 rfl, h.2⟩)
    (rampTimed_tickIrq.and moving_tickIrq) (fun _ _ => trivial) hbody

/-- The ramp time obeys the rules of a pass. -/
theorem rampTimed_rules : DriveRules id (fun _ => True) RampTimed RampTimed where
  stable := rampTimed_tickIrq
  stable_prepared := rampTimed_tickIrq
  imp := fun _ _ => trivial
  imp_prepared := fun _ _ => trivial
  init := fun _ h _ => rampTimed_of_timing h rfl
  reset := fun _ h => rampTimed_of_timing h rfl
  prepare := rampTimed_prepare
  start := rampTimed_start
  stop := appMotorStop_of_moving (rampTimed_tickIrq.and moving_tickIrq) (fun _ _ => trivial)
    (fun _ h => h.2) (rampTimed_tickIrq.and ending_tickIrq) (fun _ _ => trivial)
    fun _ h => ⟨rampTimed_of_timing h.1 rfl, .inl rfl⟩

theorem exists_lastRampTime {d : Drive} (h : profileCalls d ≠ []) :
    ∃ t, t ∈ lastRampTime d := by
  obtain ⟨c, hc⟩ := List.exists_mem_of_ne_nil _ h
  obtain ⟨e, he, hprofile⟩ := List.mem_filterMap.mp hc
  refine Option.isSome_iff_exists.mp (List.findSome?_isSome_iff.mpr ⟨e, he, ?_⟩)
  cases hcall : e.call with
  | profile rpm accel microsteps => rfl
  | _ => simp [hcall, requestedRPM] at hprofile

/-! ## Main result -/

/-- A number of ticks that covers the ramp time takes a motor from inside its ramp to
the foot. -/
theorem ramp_covered {d : Drive} {n k : ℕ} (hprofile : ProfileInv d)
    (hfirst : FirstAccepted (profileCalls d)) (hmotion : d.currentState ≠ .stopped)
    (htimed : RampTimed d) (htime : ∀ t ∈ lastRampTime d, clampAccelTimeSec id t * 1000 ≤ n)
    (hn : n ≤ k) :
    0 < k ∧ d.currentFreq - k * d.shaft.accelStepPerMs ≤ d.shaft.startFreq := by
  have hcalls := hprofile.calls_ne hmotion
  obtain ⟨t, ht⟩ := exists_lastRampTime hcalls
  have hstep : 0 < d.shaft.accelStepPerMs := (hprofile.current hfirst hcalls).2.accelStep_pos
  have hsum : d.shaft.accelStepPerMs * (clampAccelTimeSec id t * 1000) =
      d.shaft.targetFreq - d.shaft.startFreq := htimed t ht
  have htarget : d.currentFreq ≤ d.shaft.targetFreq := (hprofile.inRamp hfirst hmotion).2
  have hk : clampAccelTimeSec id t * 1000 ≤ k := (htime t ht).trans (by exact_mod_cast hn)
  have hpos := clampAccelTimeSec_pos t
  constructor
  · have hcast : (0 : ℚ) < k := by linarith
    exact_mod_cast hcast
  · have hmul := mul_le_mul_of_nonneg_left hk hstep.le
    linarith

section

variable {crc : List (BitVec 32) → BitVec 32} {c : Config World}

/-- From a pass that has returned with the motor decelerating, every later state has
the motor further down, or past the end of the motion. -/
theorem settling_run (hdone : c.code = .done) (hfollows : Follows c.state.motion)
    (hstate : c.state.drive.currentState = .decelerating) (es : List (Event Bool PassInput)) :
    Settling c.state.drive ((firmware id crc).run es c).state.drive := by
  have hstable : Stable (sysTickHandler id) fun w => Settled (Settling c.state.drive) w.motion :=
    (stable_drive (settling_tickIrq _)).and follows_stable
  have hbegin : wp (firmware id crc).irq (fun w => Settling c.state.drive w.drive)
      (fun w => Settled (Settling c.state.drive) w.motion) c.code c.state := by
    rw [hdone]
    exact hstable.always (fun _ h => ⟨h.1, h⟩) ⟨.inr ⟨0, slowing_self hstate⟩, hfollows⟩
  exact wp_invariant (I := fun w : World => Settling c.state.drive w.drive)
    (System.run_invariant (fun input w hw => pass_follows (settling_rules _) input w hw) hbegin es)

/-- Up to the end of the motion every tick counts. -/
theorem shut_down_or_slowing (hdone : c.code = .done) (hfollows : Follows c.state.motion)
    (hstate : c.state.drive.currentState = .decelerating) (es : List (Event Bool PassInput))
    (hrunning : ((firmware id crc).run es c).code ≠ .halt) :
    (∃ done rest, es = done ++ rest ∧ ShutDown ((firmware id crc).run done c).state.drive) ∨
      Slowing c.state.drive (handlerRuns es) ((firmware id crc).run es c).state.drive := by
  have hslow : ∀ k d, Settling c.state.drive d →
      (tickEvents d).length = (tickEvents c.state.drive).length + k ∧
        halts d = halts c.state.drive → Slowing c.state.drive k d := by
    rintro k d (hhalted | ⟨j, hslowing⟩) ⟨hclock, hhalts⟩
    · omega
    · obtain rfl : j = k := by
        have hclock' := hslowing.clock
        omega
      exact hslowing
  have hkeeps : c.code.Keeps fun w => tickEvents w.drive := by
    rw [hdone]
    exact fun _ => trivial
  refine (System.waits_or_responds
    (I := fun w => Settling c.state.drive w.drive) (G := fun w => ShutDown w.drive)
    (W := fun k w => (tickEvents w.drive).length = (tickEvents c.state.drive).length + k ∧
      halts w.drive = halts c.state.drive)
    (settling_run hdone hfollows hstate) pass_keeps_tickEvents hkeeps
    (fun k w w' hview hW => ?_) (fun k pin w hI hW => ?_) ⟨rfl, rfl⟩ es hrunning).imp_right
      (hslow _ _ (settling_run hdone hfollows hstate es))
  · rwa [hview, halts_of_tickEvents hview]
  · have hdrive : ((firmware id crc).irq pin w).drive = appMotorKinematicTick1ms id w.drive :=
      sysTickHandler_drive id pin w
    rw [hdrive]
    rcases slowing_tick (hslow k _ hI hW) with hnext | ⟨_, hshut⟩
    · exact .inl ⟨hnext.clock, hnext.halts⟩
    · exact .inr hshut

end

/-- Between two passes with no run requested, the motor comes to a stop within the
ramp time, whatever the following passes do, unless the processor is reset. -/
theorem shut_down_after (crc : List (BitVec 32) → BitVec 32) (start : PowerUp)
    {schedule after : List (Event Bool PassInput)} {n : ℕ}
    (hdone : (runFrom id crc start schedule).code = .done)
    (hrequest : (runFrom id crc start schedule).state.ctl.sysMotorRunRequest = false)
    (hfirst : FirstAccepted (profileCalls (runFrom id crc start schedule).state.drive))
    (htime : ∀ t ∈ lastRampTime (runFrom id crc start schedule).state.drive,
      clampAccelTimeSec id t * 1000 ≤ n)
    (hticks : n ≤ handlerRuns after)
    (hrunning : (runFrom id crc start (schedule ++ after)).code ≠ .halt) :
    ∃ done rest, after = done ++ rest ∧
      ShutDown (runFrom id crc start (schedule ++ done)).state.drive := by
  have hprofile := (runFrom_follows profile_rules profileInv_powerUp
    start schedule).2 hdone
  have hpins := (runFrom_follows (pins_rules id)
    (by simp [Pins, Drive.powerUp]) start schedule).2 hdone
  have htimed := (runFrom_follows rampTimed_rules
    (by simp [RampTimed, Drive.powerUp, lastRampTime]) start schedule).2 hdone
  have happend : ∀ es, runFrom id crc start (schedule ++ es) =
      (firmware id crc).run es (runFrom id crc start schedule) :=
    fun es => System.run_append _ schedule es _
  simp only [happend] at hrunning ⊢
  generalize runFrom id crc start schedule = c at *
  rcases hprofile.2.1 hrequest with hstate | hstopped
  · rcases shut_down_or_slowing hdone hprofile.2 hstate after hrunning with hshut | hslowing
    · exact hshut
    · have hmotion : c.state.drive.currentState ≠ .stopped :=
        fun hstopped => absurd (hstate.symm.trans hstopped) (by decide)
      obtain ⟨hpos, hfoot⟩ := ramp_covered hprofile.1 hfirst hmotion htimed.1 htime hticks
      have habove := hslowing.above hpos
      rw [hslowing.freq] at habove
      exact absurd hfoot (not_le.mpr habove)
  · refine ⟨[], after, rfl, hstopped, ?_, ?_⟩
    · exact Bool.eq_false_iff.mpr fun hen => hpins.1.1.mp hen hstopped
    · exact Bool.eq_false_iff.mpr fun htimer => hpins.1.2.mp htimer hstopped

/-- A stop command among the segments of a pass takes a running motor down within the
ramp time: in exact arithmetic, if the first profile since power-up was accepted,
any continuation that has as many ticks as the ramp time has milliseconds and is not
cut off by a reset contains a state in which the motor is stopped, its driver is
disabled and its timer is stopped, wherever the ticks land and whatever the later
passes receive. -/
theorem stop_within_ramp_time (crc : List (BitVec 32) → BitVec 32) (start : PowerUp)
    (before during after : List (Event Bool PassInput)) (input : PassInput) (n : ℕ)
    (hready : (runFrom id crc start before).code = .done)
    (hduring : ∀ e ∈ during, e.isEnter = false)
    (hreturned : (runFrom id crc start (before ++ .enter input :: during)).code = .done)
    (hstop : input.commands.any (stopAsked .motorCtrl) = true)
    (hfirst : FirstAccepted (profileCalls
      (runFrom id crc start (before ++ .enter input :: during)).state.drive))
    (htime : ∀ t ∈ lastRampTime
      (runFrom id crc start (before ++ .enter input :: during)).state.drive,
      clampAccelTimeSec id t * 1000 ≤ n)
    (hticks : n ≤ handlerRuns after)
    (hrunning : (runFrom id crc start (before ++ .enter input :: during ++ after)).code ≠ .halt) :
    ∃ done rest, after = done ++ rest ∧
      ShutDown (runFrom id crc start (before ++ .enter input :: during ++ done)).state.drive := by
  refine shut_down_after crc start hreturned ?_ hfirst htime hticks hrunning
  have hidle : (runFrom id crc start before).state.arbiter.Idle :=
    wp_returned (Q := fun w : World => w.arbiter.Idle) (runFrom_idle start before) hready
  have hentered := @pass_arbiter id crc input _ (runFrom id crc start before).state rfl
  obtain ⟨level, hlevel⟩ := @System.body_returned _ _ _ _ _ (firmware id crc) before during input
    (start.config crc) hready hduring hreturned hentered
  have hrequest := (Arbiter.settle_receiveAll hidle input.commands level).2.1
  rw [← hlevel, if_pos hstop] at hrequest
  exact hrequest

/-- A motor with a ramp of a tenth of a second is stopped after 40 ms of acceleration: it is
shut down within 100 ms. -/
theorem stop_within_ramp_time_tenth :
    let before := bootAndPasses [writes [(.motorAccel, 1), (.motorCtrl, 1)]] ++
      List.replicate 40 (.irq true)
    ∃ done rest, List.replicate 100 (.irq true) = done ++ rest ∧
      ShutDown (runFrom id (fun _ => 0) (emptyFlash false) (before ++
        .enter (writes [(.motorCtrl, 0)]) :: List.replicate 50 .main ++ done)).state.drive := by
  intro before
  refine stop_within_ramp_time (fun _ => 0) (emptyFlash false) before
    (List.replicate 50 .main) (List.replicate 100 (.irq true)) (writes [(.motorCtrl, 0)]) 100
    (Code.returned_iff.mp (by decide +kernel)) (by decide)
    (Code.returned_iff.mp (by decide +kernel)) (by decide +kernel) ?_ ?_ (by decide +kernel)
    fun hhalt => ?_
  · show ∀ c ∈ (profileCalls _).getLast?, c.1 < 200
    decide +kernel
  · decide +kernel
  · have hdone := congrArg Code.returned hhalt
    revert hdone
    decide +kernel

end Firmware
end MDCMotorControl
