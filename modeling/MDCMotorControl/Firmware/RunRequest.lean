import MDCMotorControl.Firmware.MotionView
import MDCMotorControl.Motor.DriveCode

/-!
# The motor follows the run request

A pass decides on the motor state it sampled before it looked at the requests.
While it does, the tick may take an accelerating motor to its cruise and a
decelerating one to its stop; nothing else moves the state under the pass.

The rule `pass_follows` packages this argument for any assertion about the drive;
the pins of the driver are one instance of it.

Main results:

- Theorem `snapshot_stable`: what a sampled state says about the real one.
- Theorems `pass_follows` and `runFrom_follows`: after every pass the motor is in
  a state that the request allows.
- Theorem `motor_follows_request`: in addition, the driver is enabled and the
  timer runs exactly when the motor is not stopped.
-/

namespace MDCMotorControl
namespace Firmware

open Interruptible Motor Settings Modbus Panel FlashSector

/-! ## States between two decisions -/

/-- What a state sampled earlier in the pass says about the drive. -/
def Snapshot (sampled : MotorState) (d : Drive) : Prop :=
  match sampled with
  | .stopped => d.currentState = .stopped
  | .accelerating => Moving d
  | .cruising => Moving d
  | .decelerating => Ending d

theorem snapshot_self (d : Drive) : Snapshot d.currentState d := by
  cases h : d.currentState with
  | stopped => exact h
  | accelerating => exact .inl h
  | cruising => exact .inr h
  | decelerating => exact .inl h

section

variable {fl : ℚ → ℚ}

/-- Ticks keep what a sampled state says about the drive. -/
theorem snapshot_stable (sampled : MotorState) : Stable (tickIrq fl) (Snapshot sampled) := by
  cases sampled with
  | stopped => exact stopped_tickIrq
  | accelerating => exact moving_tickIrq
  | cruising => exact moving_tickIrq
  | decelerating => exact ending_tickIrq

/-! ## Following the request -/

/-- The motor is in a state that the request allows: with no request it stops or
has stopped; with a request it moves, unless it was found decelerating. -/
def Follows (v : MotionView) : Prop :=
  (v.sysMotorRunRequest = false → Ending v.drive) ∧
    (v.sysMotorRunRequest = true →
      Moving v.drive ∨ v.motorState = .decelerating ∧ Ending v.drive)

/-- Between the sampling and the state machine: what was sampled still bounds the
real state. -/
def Sampled (A : Drive → Prop) (v : MotionView) : Prop :=
  A v.drive ∧ Snapshot v.motorState v.drive

/-- Between two passes. -/
def Settled (A : Drive → Prop) (v : MotionView) : Prop :=
  A v.drive ∧ Follows v

theorem follows_stable : Stable (sysTickHandler fl) fun w => Follows w.motion := by
  intro pin w h
  simp only [Follows, World.motion, sysTickHandler_ctl, sysTickHandler_drive] at h ⊢
  have hmoving : Moving w.drive → Moving (tickIrq fl () w.drive) := moving_tickIrq () w.drive
  have hending : Ending w.drive → Ending (tickIrq fl () w.drive) := ending_tickIrq () w.drive
  exact ⟨fun hr => hending (h.1 hr),
    fun hr => (h.2 hr).imp hmoving (And.imp_right hending)⟩

/-- What drive code must do for a pass to keep an assertion `A` about the drive:
the profile calculation prepares a stopped motor for its start, the start sets
it moving, and the stop makes a moving motor end its motion. -/
structure DriveRules (fl : ℚ → ℚ) (I A B : Drive → Prop) : Prop where
  stable : Stable (tickIrq fl) A
  stable_prepared : Stable (tickIrq fl) B
  imp : ∀ d, A d → I d
  imp_prepared : ∀ d, B d → I d
  init : ∀ d, A d → d.currentState = .stopped → A (halMotorInit d)
  reset : ∀ d, A d → A (d.log .main .systemReset)
  prepare : ∀ rpm accel microsteps,
    Triple (tickIrq fl) I (fun d => A d ∧ d.currentState = .stopped)
      (appMotorCalculateProfile fl rpm accel microsteps)
      fun d => B d ∧ d.currentState = .stopped
  start : ∀ direction,
    Triple (tickIrq fl) I (fun d => B d ∧ d.currentState = .stopped) (appMotorStart direction)
      fun d => A d ∧ Moving d
  stop : Triple (tickIrq fl) I (fun d => A d ∧ Moving d) appMotorStop fun d => A d ∧ Ending d

section

variable {I A B : Drive → Prop} {crc : List (BitVec 32) → BitVec 32}

/-- The two calls of the state machine that start the motor. -/
theorem startMotor_rule (h : DriveRules fl I A B) (R : Control → Prop) :
    Triple (sysTickHandler fl) (fun w => I w.drive)
      (fun w => (A w.drive ∧ w.drive.currentState = .stopped) ∧ R w.ctl) (startMotor fl)
      fun w => (A w.drive ∧ Moving w.drive) ∧ R w.ctl := by
  have hstopped := (stable_drive (h.stable.and stopped_tickIrq)).and (stable_ctl (R := R))
  have hready := (stable_drive (h.stable_prepared.and stopped_tickIrq)).and (stable_ctl (R := R))
  refine (Triple.eval hstopped (fun w hw => h.imp w.drive hw.1.1) fun w hw =>
    onDrive_triple (h.prepare _ _ _) w hw).seq ?_
  rw [Code.block_singleton]
  exact .eval hready (fun w hw => h.imp_prepared w.drive hw.1.1) fun w hw =>
    onDrive_triple (h.start _) w hw

theorem sampled_stable (h : DriveRules fl I A B) :
    Stable (sysTickHandler fl) fun w => Sampled A w.motion := by
  intro pin w hw
  have htick : Stable (tickIrq fl) (Snapshot w.ctl.motorState) := snapshot_stable _
  have hsnapshot := stable_drive htick pin w hw.2
  constructor
  · exact stable_drive h.stable pin w hw.1
  · simpa only [World.motion, sysTickHandler_ctl] using hsnapshot

/-- The state machine may do nothing when the sampled state already agrees with
the request, or the motor was found decelerating. -/
theorem Sampled.settled {v : MotionView} (h : Sampled A v)
    (hcase : v.motorState = .decelerating ∨
      v.motorState = .stopped ∧ v.sysMotorRunRequest = false ∨
      v.motorState ≠ .stopped ∧ v.sysMotorRunRequest = true) : Settled A v := by
  obtain ⟨hA, hsnapshot⟩ := h
  refine ⟨hA, ?_⟩
  rcases hcase with hstate | ⟨hstate, hrequest⟩ | ⟨hstate, hrequest⟩
  · rw [hstate] at hsnapshot
    exact ⟨fun _ => hsnapshot, fun _ => .inr ⟨hstate, hsnapshot⟩⟩
  · rw [hstate] at hsnapshot
    exact ⟨fun _ => .inr hsnapshot, fun hnot => absurd (hrequest.symm.trans hnot) (by decide)⟩
  · refine ⟨fun hnot => absurd (hrequest.symm.trans hnot) (by decide), fun _ => ?_⟩
    cases hm : v.motorState with
    | stopped => exact absurd hm hstate
    | accelerating => rw [hm] at hsnapshot; exact .inl hsnapshot
    | cruising => rw [hm] at hsnapshot; exact .inl hsnapshot
    | decelerating => rw [hm] at hsnapshot; exact .inr ⟨rfl, hsnapshot⟩

/-- The state machine leaves the motor in a state that the request allows. -/
theorem motorStateMachine_follows (h : DriveRules fl I A B) :
    Triple (sysTickHandler fl) (fun w => I w.drive) (fun w => Sampled A w.motion)
      (motorStateMachine fl) fun w => Settled A w.motion := by
  apply motorStateMachine_triple fl (I := fun v => I v.drive)
    ((stable_drive h.stable).and follows_stable) (sampled_stable h)
    (fun v hv => h.imp v.drive hv.1) (fun v hv => h.imp v.drive hv.1)
  · intro w hw hstate hrequest
    have hstopped : w.drive.currentState = .stopped := by
      have hsnapshot : Snapshot w.ctl.motorState w.drive := hw.2
      rwa [hstate] at hsnapshot
    have hstart := startMotor_rule h (·.sysMotorRunRequest = true) w
      ⟨⟨hw.1, hstopped⟩, hrequest⟩
    apply wp_mono (fun _ => id) _ hstart
    rintro v ⟨⟨hA, hmoving⟩, hrun⟩
    refine ⟨hA, fun hnot => ?_, fun _ => .inl hmoving⟩
    exact absurd (hrun.symm.trans hnot) (by decide)
  · intro w hw hstate hrequest
    have hmoving : Moving w.drive := by
      have hsnapshot : Snapshot w.ctl.motorState w.drive := hw.2
      rcases hstate with hstate | hstate <;> rwa [hstate] at hsnapshot
    have hstop := onDrive_triple (R := (·.sysMotorRunRequest = false)) h.stop w
      ⟨⟨hw.1, hmoving⟩, hrequest⟩
    apply wp_mono (fun _ => id) _ hstop
    rintro v ⟨⟨hA, hending⟩, hrun⟩
    refine ⟨hA, fun _ => hending, fun hnot => ?_⟩
    exact absurd (hrun.symm.trans hnot) (by decide)
  · exact fun v hv hcase => hv.settled hcase

/-- A pass keeps the assertion and leaves the motor in a state that the request
allows. -/
theorem pass_follows (h : DriveRules fl I A B) (input : PassInput) :
    Triple (sysTickHandler fl) (fun w => I w.drive) (fun w => Settled A w.motion)
      (pass fl crc input) fun w => Settled A w.motion := by
  have hsettled : Stable (sysTickHandler fl) fun w => Settled A w.motion :=
    (stable_drive h.stable).and follows_stable
  have hsampled := sampled_stable h
  have hkeep : ∀ c : Code World, c.Preserves (fun w => Sampled A w.motion) →
      Triple (sysTickHandler fl) (fun w => I w.drive) (fun w => Sampled A w.motion) c
        fun w => Sampled A w.motion :=
    fun c hc => .of_preserves hsampled (fun w hw => h.imp w.drive hw.1) hc
  apply pass_triple fl crc (I := fun v => I v.drive) input hsettled hsampled
    (fun v hv => h.imp v.drive hv.1) (fun v hv => h.imp v.drive hv.1) (fun _ _ _ hw => hw)
  · exact .act hsettled (fun w hw => h.imp w.drive hw.1) (R := fun w => Settled A w.motion)
      (fun w hw => hw) <| .stmt hsettled (fun w hw => h.imp w.drive hw.1) hsampled
      (fun w hw => h.imp w.drive hw.1) fun w hw => ⟨hw.1, snapshot_self w.drive⟩
  · simp only [List.mem_cons, List.not_mem_nil, or_false, forall_eq_or_imp, forall_eq]
    exact ⟨hkeep _ (.whenever ⟨fun _ hw => hw, fun _ hw => hw, trivial⟩),
      hkeep _ (.whenever ⟨fun _ hw => hw, fun _ hw => hw, trivial⟩),
      hkeep _ (.whenever ⟨fun _ hw => hw, fun _ hw => hw, trivial⟩),
      hkeep _ (.whenever ⟨fun _ hw => hw, fun _ hw => hw,
        fun w hw => ⟨h.reset w.drive hw.1, hw.2⟩, trivial⟩)⟩
  · exact motorStateMachine_follows h

/-- The boot leaves a stopped motor and no request. -/
theorem boot_follows (h : DriveRules fl I A B) (ops : Outcomes 12) :
    Triple (sysTickHandler fl) (fun w => I w.drive)
      (fun w => (A w.drive ∧ w.drive.currentState = .stopped) ∧
        w.ctl.sysMotorRunRequest = false) (boot crc ops) fun w => Settled A w.motion := by
  have hstable := (stable_drive (h.stable.and stopped_tickIrq)).and
    (stable_ctl (R := (·.sysMotorRunRequest = false)))
  have hboot : (boot crc ops).Preserves fun w => (A w.drive ∧ w.drive.currentState = .stopped) ∧
      w.ctl.sysMotorRunRequest = false :=
    boot_preserves
      (P := fun v => (A v.drive ∧ v.drive.currentState = .stopped) ∧ v.sysMotorRunRequest = false)
      ops (fun w hw => ⟨⟨h.init w.drive hw.1.1 hw.1.2, hw.1.2⟩, hw.2⟩) (fun _ hw => hw)
      fun _ hw => hw
  refine (Triple.of_preserves hstable (fun w hw => h.imp w.drive hw.1.1) hboot).conseq
    (fun _ => id) fun w hw => ⟨hw.1.1, fun _ => .inr hw.1.2, fun hnot => ?_⟩
  exact absurd (hw.2.symm.trans hnot) (by decide)

/-- An assertion about the drive that obeys the rules holds after the boot and
after every pass of every run, together with the run request; its invariant
holds in every state. -/
theorem runFrom_follows (h : DriveRules fl I A B) (hinit : A .powerUp) (start : PowerUp)
    (schedule : List (Event Bool PassInput)) :
    I (runFrom fl crc start schedule).state.drive ∧
    ((runFrom fl crc start schedule).code = .done →
      Settled A (runFrom fl crc start schedule).state.motion) := by
  have hboot : wp (sysTickHandler fl) (fun w => I w.drive) (fun w => Settled A w.motion)
      (boot crc start.repair) (.powerUp start.flash start.pin) :=
    boot_follows h start.repair _ ⟨⟨hinit, rfl⟩, rfl⟩
  exact ⟨runFrom_invariant (I := fun v => I v.drive) start hboot (pass_follows h) schedule,
    runFrom_returned (I := fun v => I v.drive) start hboot (pass_follows h) schedule⟩

end

/-! ## The pins of the driver -/

/-- The driver is enabled and the timer runs exactly when the motor is not
stopped. -/
def Pins (d : Drive) : Prop :=
  (d.enPin = true ↔ d.currentState ≠ .stopped) ∧
    (d.timerRunning = true ↔ d.currentState ≠ .stopped)

theorem pins_tickIrq : Stable (tickIrq fl) Pins := by
  intro _ d h
  have hcase := appMotorKinematicTick1ms_cases fl d
  show Pins (appMotorKinematicTick1ms fl d)
  generalize appMotorKinematicTick1ms fl d = d' at hcase
  cases hcase with
  | idle => exact h
  | up hstate => simpa [Pins, hstate] using h
  | reach hstate => simpa [Pins, hstate] using h
  | down hstate => simpa [Pins, hstate] using h
  | halt hstate => simp [Pins, halMotorEnable, halMotorStopTimer, Drive.log]

/-- A moving motor with the driver enabled stays so. -/
theorem enabled_tickIrq : Stable (tickIrq fl) fun d => Moving d ∧ d.enPin = true := by
  rintro _ d ⟨hmoving, hen⟩
  refine ⟨moving_tickIrq () d hmoving, ?_⟩
  have hcase := appMotorKinematicTick1ms_cases fl d
  show (appMotorKinematicTick1ms fl d).enPin = true
  generalize appMotorKinematicTick1ms fl d = d' at hcase
  cases hcase with
  | idle => exact hen
  | up => simpa using hen
  | reach => simpa using hen
  | down => simpa using hen
  | halt hstate => simp [Moving, hstate] at hmoving

/-- The guarded statements of the start bring the pins up around the change of
state. -/
theorem startBody_pins (direction : BitVec 8) :
    Triple (tickIrq fl) (fun _ => True) (fun d => d.currentState = .stopped)
      (startBody direction) fun d => Pins d ∧ Moving d := by
  have hready : Stable (tickIrq fl) fun d => d.currentState = .stopped ∧ d.enPin = true := by
    rintro _ d ⟨hstate, hen⟩
    show (appMotorKinematicTick1ms fl d).currentState = .stopped ∧
      (appMotorKinematicTick1ms fl d).enPin = true
    rw [appMotorKinematicTick1ms_of_stopped fl hstate]
    exact ⟨hstate, hen⟩
  refine .act stopped_tickIrq (fun _ _ => trivial) (R := fun d => d.currentState = .stopped)
    (fun d hd => hd) ?_
  refine .act stopped_tickIrq (fun _ _ => trivial)
    (R := fun d => d.currentState = .stopped ∧ d.enPin = true) (fun d hd => ⟨hd, rfl⟩) ?_
  refine .act hready (fun _ _ => trivial)
    (R := fun d => d.currentState = .stopped ∧ d.enPin = true) (fun d hd => hd) ?_
  refine .act hready (fun _ _ => trivial) (R := fun d => Moving d ∧ d.enPin = true)
    (fun d hd => ⟨.inl rfl, hd.2⟩) ?_
  refine .act enabled_tickIrq (fun _ _ => trivial) (R := fun d => Moving d ∧ d.enPin = true)
    (fun d hd => by simpa [Moving] using hd) ?_
  refine .stmt enabled_tickIrq (fun _ _ => trivial) (pins_tickIrq.and moving_tickIrq)
    (fun _ _ => trivial) fun d hd => ⟨⟨?_, ?_⟩, hd.1⟩
  · exact ⟨fun _ => hd.1.ne_stopped, fun _ => hd.2⟩
  · exact ⟨fun _ => hd.1.ne_stopped, fun _ => rfl⟩

/-- The pins obey the rules of a pass. -/
theorem pins_rules (fl : ℚ → ℚ) : DriveRules fl (fun _ => True) Pins Pins where
  stable := pins_tickIrq
  stable_prepared := pins_tickIrq
  imp := fun _ _ => trivial
  imp_prepared := fun _ _ => trivial
  init := fun d _ hstate => by
    simp [Pins, halMotorInit, halMotorSetDirection, halMotorEnable, Drive.log, hstate]
  reset := fun _ h => h
  prepare := fun rpm accel microsteps => .of_preserves (pins_tickIrq.and stopped_tickIrq)
    (fun _ _ => trivial) ⟨fun _ h => h, fun _ h => h, fun _ h => h, fun _ h => h, fun _ h => h,
      fun _ h => h, trivial⟩
  start := fun direction => appMotorStart_of_stopped direction (pins_tickIrq.and stopped_tickIrq)
    (fun _ _ => trivial) (fun _ h => h.2) (fun _ h => h) (.stmt fun _ h => h)
    (pins_tickIrq.and moving_tickIrq) (fun _ _ => trivial)
    ((startBody_pins direction).conseq (fun _ h => h.2) fun _ h => h)
  stop := appMotorStop_of_moving (pins_tickIrq.and moving_tickIrq) (fun _ _ => trivial)
    (fun _ h => h.2) (pins_tickIrq.and ending_tickIrq) (fun _ _ => trivial) fun d h => by
      have hne := h.2.ne_stopped
      simpa [Pins, Ending, hne] using h.1

end

/-! ## Main result -/

/-- Whenever a pass has returned, in any run: with no request the motor is
decelerating or stopped; with a request it is accelerating or cruising, or it was
sampled as decelerating and is decelerating or stopped; and the driver is enabled
and the timer runs exactly when the motor is not stopped. -/
theorem motor_follows_request (fl : ℚ → ℚ) (crc : List (BitVec 32) → BitVec 32)
    (start : PowerUp) (schedule : List (Event Bool PassInput))
    (hdone : (runFrom fl crc start schedule).code = .done) :
    let w := (runFrom fl crc start schedule).state
    Follows w.motion ∧ Pins w.drive := by
  have hinit : Pins .powerUp := by simp [Pins, Drive.powerUp]
  obtain ⟨hpins, hfollows⟩ :=
    (runFrom_follows (pins_rules fl) hinit start schedule).2 hdone
  exact ⟨hfollows, hpins⟩

/-- A motor that was started and has reached its cruise. -/
theorem motor_follows_request_cruising :
    let w := (runFrom id (fun _ => 0) (emptyFlash false)
      (cruiseAndThen (.enter (writes []) :: List.replicate 50 .main))).state
    w.ctl.sysMotorRunRequest = true ∧ w.drive.currentState = .cruising ∧
      Follows w.motion ∧ Pins w.drive :=
  ⟨by decide +kernel, by decide +kernel,
    motor_follows_request id (fun _ => 0) (emptyFlash false) _
      (Code.returned_iff.mp (by decide +kernel))⟩

end Firmware
end MDCMotorControl
