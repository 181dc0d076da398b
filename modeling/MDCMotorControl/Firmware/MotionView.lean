import MDCMotorControl.Firmware.MainLoop

/-!
# The motion of the motor through the firmware

Most of a pass does not touch what decides how the motor moves.  The motion view
is that part of the state, and the rules of this module reduce an assertion about
it to the few steps that do.

Main results:

- Theorem `pass_triple`: a pass keeps an assertion if its motion steps do.
- Theorem `motorStateMachine_triple`: the three things the state machine does.
- Theorems `runFrom_invariant` and `runFrom_returned`: what the boot establishes
  and every pass keeps holds along every run.
-/

namespace MDCMotorControl
namespace Firmware

open Interruptible Motor Settings Modbus Panel FlashSector

/-! ## The view -/

/-- The part of the state that decides how the motor moves. -/
structure MotionView where
  drive : Drive
  switch : Switch
  history : List Observation
  lastSwitchState : Bool
  currentSwitchState : Bool
  sysMotorRunRequest : Bool
  motorState : MotorState
  pendingMotorStart : Bool
  pendingMotorStop : Bool
  pendingRebootCmd : Bool
  targetRPM : ℚ
  accelTimeSec : ℚ
  microsteps : BitVec 16
  motorDirection : BitVec 8

/-- The motion view of a state. -/
def World.motion (w : World) : MotionView where
  drive := w.drive
  switch := w.switch
  history := w.history
  lastSwitchState := w.ctl.lastSwitchState
  currentSwitchState := w.ctl.currentSwitchState
  sysMotorRunRequest := w.ctl.sysMotorRunRequest
  motorState := w.ctl.motorState
  pendingMotorStart := w.ctl.mb.pendingMotorStart
  pendingMotorStop := w.ctl.mb.pendingMotorStop
  pendingRebootCmd := w.ctl.mb.pendingRebootCmd
  targetRPM := w.ctl.mb.targetRPM
  accelTimeSec := w.ctl.mb.accelTimeSec
  microsteps := w.ctl.mb.microsteps
  motorDirection := w.ctl.mb.motorDirection

/-- Loading the settings does not touch the motion. -/
theorem settingsInit_keeps_motion {crc : List (BitVec 32) → BitVec 32} (ops : Outcomes 12) :
    (settingsInit crc ops).Keeps World.motion :=
  settingsInit_keeps crc (fun _ _ => rfl) ops

/-- Saving does not touch the motion. -/
theorem saveCommand_keeps_motion {crc : List (BitVec 32) → BitVec 32} (ops : Outcomes 12) :
    (saveCommand crc ops).Keeps World.motion :=
  saveCommand_keeps crc (fun _ => rfl) (fun _ => rfl) (fun _ _ => rfl) ops

/-- The commands for the stream, the UART and the encoder touch neither the motion nor
the lamps. -/
theorem peripheralCommands_keep :
    ∀ c ∈ [streamStartCommand, streamStopCommand, baudChangeCommand, encoderDirCommand],
      c.Keeps fun w => (w.motion, w.lamps) := by
  simp only [List.mem_cons, List.not_mem_nil, or_false, forall_eq_or_imp, forall_eq]
  refine ⟨.whenever ?_, .whenever ?_, .whenever ?_, .whenever_pair (fun _ => rfl) fun _ => rfl⟩
  · exact .pair (.stmt fun _ => rfl) (.whenever_pair (fun _ => rfl) fun _ => rfl)
  · exact .pair (.stmt fun _ => rfl) (.whenever_pair (fun _ => rfl) fun _ => rfl)
  · exact .block_cons (.stmt fun _ => rfl) <|
      .block_cons (.stmt fun _ => rfl) <|
      .block_cons (.whenever (.stmt fun _ => rfl)) <|
      .block_cons (.stmt fun _ => rfl) <|
      .block_cons (.whenever (.stmt fun _ => rfl)) .block_nil

theorem peripheralCommands_keep_motion :
    ∀ c ∈ [streamStartCommand, streamStopCommand, baudChangeCommand, encoderDirCommand],
      c.Keeps World.motion :=
  fun c hc v => (peripheralCommands_keep c hc).preserves fun a => a.1 = v

/-- Of the boot, only the set-up of the motor, the reading of the switch and the
copy of the settings touch the motion. -/
theorem boot_preserves {crc : List (BitVec 32) → BitVec 32} {P : MotionView → Prop}
    (ops : Outcomes 12)
    (hmotor : ∀ w, P (World.motion w) → P (w.setDrive (halMotorInit w.drive)).motion)
    (hswitch : ∀ w, P (World.motion w) →
      P (({ w with switch := appSwitchInit w.switchPin w.switch }).observe
        (.switchInit (halSwitchGetRawState w.switchPin))).motion)
    (hsync : ∀ w, P (World.motion w) → P (w.onCtl syncModbus).motion) :
    (boot crc ops).Preserves fun w => P w.motion :=
  .block_cons ((settingsInit_keeps_motion ops).preserves P)
    ⟨hmotor, fun _ => id, hswitch, fun _ => id, fun _ => id, fun _ => id, hsync, trivial⟩

/-! ## Drive code in the firmware -/

theorem stable_ctl {fl : ℚ → ℚ} {R : Control → Prop} :
    Stable (sysTickHandler fl) fun w => R w.ctl := by
  intro pin w hw
  show R (sysTickHandler fl pin w).ctl
  rwa [sysTickHandler_ctl]

/-- An assertion that ticks keep of the drive is kept in the firmware. -/
theorem stable_drive {fl : ℚ → ℚ} {P : Drive → Prop} (h : Stable (tickIrq fl) P) :
    Stable (sysTickHandler fl) fun w => P w.drive := by
  intro pin w hw
  show P (sysTickHandler fl pin w).drive
  rw [sysTickHandler_drive]
  exact h () w.drive hw

/-- What holds of drive code by itself holds of it in the firmware, and it keeps
what depends on the control state only. -/
theorem onDrive_triple {fl : ℚ → ℚ} {I P Q : Drive → Prop} {R : Control → Prop}
    {c : Code Drive} (h : Triple (tickIrq fl) I P c Q) :
    Triple (sysTickHandler fl) (fun w => I w.drive) (fun w => P w.drive ∧ R w.ctl)
      (onDrive c) fun w => Q w.drive ∧ R w.ctl := by
  have hget : ∀ d w, (World.setDrive d w).drive = d := fun _ _ => rfl
  intro w hw
  exact wp_mono (fun _ hv => hv.1) (fun _ => id) (Triple.lift hget
    (fun pin v => ⟨(), sysTickHandler_drive fl pin v⟩) stable_ctl (fun _ _ hv => hv) h w hw)

/-! ## Rules for a pass -/

section

variable (fl : ℚ → ℚ) (crc : List (BitVec 32) → BitVec 32)

/-- The motor state machine does one of three things: start a motor sampled as
stopped, stop one sampled as moving, or nothing. -/
theorem motorStateMachine_triple {I A B : MotionView → Prop}
    (hA : Stable (sysTickHandler fl) fun w => A w.motion)
    (hB : Stable (sysTickHandler fl) fun w => B w.motion)
    (hAI : ∀ v, A v → I v) (hBI : ∀ v, B v → I v)
    (hstart : ∀ w, B w.motion → w.ctl.motorState = .stopped → w.ctl.sysMotorRunRequest = true →
      wp (sysTickHandler fl) (fun w => I w.motion) (fun w => A w.motion) (startMotor fl) w)
    (hstop : ∀ w, B w.motion → w.ctl.motorState = .accelerating ∨ w.ctl.motorState = .cruising →
      w.ctl.sysMotorRunRequest = false →
      wp (sysTickHandler fl) (fun w => I w.motion) (fun w => A w.motion) (onDrive appMotorStop) w)
    (hskip : ∀ v, B v →
      v.motorState = .decelerating ∨ v.motorState = .stopped ∧ v.sysMotorRunRequest = false ∨
        v.motorState ≠ .stopped ∧ v.sysMotorRunRequest = true → A v) :
    Triple (sysTickHandler fl) (fun w => I w.motion) (fun w => B w.motion)
      (motorStateMachine fl) fun w => A w.motion := by
  refine .eval hB (fun w => hBI w.motion) fun w hw => ?_
  -- the sampled state stays what it was when the machine read it
  have hstate : ∀ m, Stable (sysTickHandler fl) fun v => B v.motion ∧ v.ctl.motorState = m :=
    fun m => hB.and fun pin v hv => by rwa [sysTickHandler_ctl]
  have hlamp : ∀ m mode, Triple (sysTickHandler fl) (fun v => I v.motion)
      (fun v => B v.motion ∧ v.ctl.motorState = m) (setLamp mode)
      fun v => B v.motion ∧ v.ctl.motorState = m := by
    intro m mode
    have hkeeps : (setLamp mode).Keeps fun v => (v.motion, v.ctl.motorState) :=
      onLamps_keeps (fun _ _ => rfl) _
    exact .of_preserves (hstate m) (fun v hv => hBI v.motion hv.1)
      (hkeeps.preserves fun a => B a.1 ∧ a.2 = m)
  have hstopping : ∀ m mode, m = .accelerating ∨ m = .cruising →
      Triple (sysTickHandler fl) (fun v => I v.motion)
        (fun v => B v.motion ∧ v.ctl.motorState = m)
        (.block [setLamp mode, stopUnlessRequested]) fun v => A v.motion := by
    intro m mode hm
    refine (hlamp m mode).seq ?_
    rw [Code.block_singleton]
    refine .whenever (hstate m) (fun v hv => hBI v.motion hv.1) hA (fun v => hAI v.motion) ?_ ?_
    · rintro v ⟨hv, rfl⟩ hrequest
      exact hstop v hv hm (by simpa using hrequest)
    · rintro v ⟨hv, rfl⟩ hrequest
      have hrun : v.ctl.sysMotorRunRequest = true := by simpa using hrequest
      refine hskip v.motion hv (.inr (.inr ⟨?_, hrun⟩))
      rcases hm with hm | hm <;> simp [World.motion, hm]
  cases hm : w.ctl.motorState with
  | stopped =>
      refine (hlamp .stopped .off).seq ?_ w ⟨hw, hm⟩
      rw [Code.block_singleton]
      refine .whenever (hstate .stopped) (fun v hv => hBI v.motion hv.1) hA
        (fun v => hAI v.motion) ?_ ?_
      · exact fun v hv hrequest => hstart v hv.1 hv.2 hrequest
      · exact fun v hv hrequest => hskip v.motion hv.1 (.inr (.inl ⟨hv.2, hrequest⟩))
  | accelerating => exact hstopping .accelerating .blinkFast (.inl rfl) w ⟨hw, hm⟩
  | cruising => exact hstopping .cruising .on (.inr rfl) w ⟨hw, hm⟩
  | decelerating =>
      exact ((hlamp .decelerating .blinkFast).conseq (fun _ => id)
        fun v hv => hskip v.motion hv.1 (.inl hv.2)) w ⟨hw, hm⟩

/-- A pass keeps an assertion about the motion if each of the steps that touch
the motion does.  From the sampling of the inputs to the motor state machine a
stronger assertion may hold. -/
theorem pass_triple {I A B : MotionView → Prop} (input : PassInput)
    (hA : Stable (sysTickHandler fl) fun w => A w.motion)
    (hB : Stable (sysTickHandler fl) fun w => B w.motion)
    (hAI : ∀ v, A v → I v) (hBI : ∀ v, B v → I v)
    (hreceive : ∀ p inputs w, A w.motion → A (receive fl p inputs w).motion)
    (hsample : Triple (sysTickHandler fl) (fun w => I w.motion) (fun w => A w.motion)
      sampleInputs fun w => B w.motion)
    (hcommand : ∀ c ∈ [switchEdge, motorStartCommand, motorStopCommand, rebootCommand],
      Triple (sysTickHandler fl) (fun w => I w.motion) (fun w => B w.motion) c
        fun w => B w.motion)
    (hmachine : Triple (sysTickHandler fl) (fun w => I w.motion) (fun w => B w.motion)
      (motorStateMachine fl) fun w => A w.motion) :
    Triple (sysTickHandler fl) (fun w => I w.motion) (fun w => A w.motion)
      (pass fl crc input) fun w => A w.motion := by
  have hkeep : ∀ c : Code World, c.Keeps World.motion →
      Triple (sysTickHandler fl) (fun w => I w.motion) (fun w => B w.motion) c
        fun w => B w.motion :=
    fun c hc => .of_preserves hB (fun w => hBI w.motion) (hc.preserves B)
  have hlwip : (mxLwipProcess fl input.deliveries).Preserves fun w => A w.motion :=
    mxLwipProcess_preserves fl hreceive input.deliveries
  have hperipheral := peripheralCommands_keep_motion
  simp only [List.mem_cons, List.not_mem_nil, or_false, forall_eq_or_imp, forall_eq]
    at hcommand hperipheral
  obtain ⟨hedge, hstart, hstop, hreboot⟩ := hcommand
  obtain ⟨hstreamStart, hstreamStop, hbaud, hdir⟩ := hperipheral
  have hcommands : Triple (sysTickHandler fl) (fun w => I w.motion) (fun w => B w.motion)
      commands fun w => B w.motion :=
    hedge.seq <| hstart.seq <| hstop.seq <| (hkeep _ hstreamStart).seq <|
      (hkeep _ hstreamStop).seq <| (hkeep _ hbaud).seq <| (hkeep _ hdir).seq <| by
        rw [Code.block_singleton]
        exact hreboot
  exact (Triple.of_preserves hA (fun w => hAI w.motion) hlwip).seq <| hsample.seq <|
    (hkeep _ (saveCommand_keeps_motion input.save)).seq <| hcommands.seq <| by
      rw [Code.block_singleton]
      exact hmachine

/-- A view of the drive that the three motor calls and the reset leave alone is left
alone by a pass. -/
theorem pass_keeps_drive {β : Type*} {part : Drive → β}
    (hprofile : ∀ rpm accel microsteps,
      (appMotorCalculateProfile fl rpm accel microsteps).Keeps part)
    (hstart : ∀ direction, (appMotorStart direction).Keeps part) (hstop : appMotorStop.Keeps part)
    (hreset : ∀ d, part (d.log .main .systemReset) = part d) (input : PassInput) :
    (pass fl crc input).Keeps fun w => part w.drive := by
  have hdrive : ∀ c : Code Drive, c.Keeps part → (onDrive c).Keeps fun w => part w.drive :=
    fun c hc => onDrive_keeps_of hc fun _ _ => id
  have hmotion : ∀ c : Code World, c.Keeps World.motion → c.Keeps fun w => part w.drive :=
    fun c hc a => hc.preserves fun v => part v.drive = a
  have hperipheral := peripheralCommands_keep_motion
  simp only [List.mem_cons, List.not_mem_nil, or_false, forall_eq_or_imp, forall_eq]
    at hperipheral
  obtain ⟨hstreamStart, hstreamStop, hbaud, hdir⟩ := hperipheral
  have hlwip : (mxLwipProcess fl input.deliveries).Keeps fun w => part w.drive :=
    fun a => mxLwipProcess_preserves fl (fun _ _ _ => id) input.deliveries
  have hreboot : rebootCommand.Keeps fun w => part w.drive :=
    .whenever fun a => ⟨fun _ => id, fun _ => id, fun w hw => (hreset w.drive).trans hw, trivial⟩
  have hcommands : commands.Keeps fun w => part w.drive :=
    .block_cons (.whenever_pair (fun _ => rfl) fun _ => rfl) <|
      .block_cons (.whenever_pair (fun _ => rfl) fun _ => rfl) <|
      .block_cons (.whenever_pair (fun _ => rfl) fun _ => rfl) <|
      .block_cons (hmotion _ hstreamStart) <| .block_cons (hmotion _ hstreamStop) <|
      .block_cons (hmotion _ hbaud) <| .block_cons (hmotion _ hdir) <|
      .block_cons hreboot .block_nil
  have hlaunch : (startMotor fl).Keeps fun w => part w.drive :=
    .pair (fun a w => hdrive _ (hprofile _ _ _) a) fun a w => hdrive _ (hstart _) a
  have hmachine : (motorStateMachine fl).Keeps fun w => part w.drive :=
    fun a => motorStateMachine_preserves fl (fun _ _ => id) (hlaunch a) (hdrive _ hstop a)
  exact .block_cons hlwip <| .block_cons (.pair (.stmt fun _ => rfl) (.stmt fun _ => rfl)) <|
    .block_cons (hmotion _ (saveCommand_keeps_motion input.save)) <|
    .block_cons hcommands <| .block_cons hmachine .block_nil

end

/-! ## Runs -/

section

variable {fl : ℚ → ℚ} {crc : List (BitVec 32) → BitVec 32} {I A : MotionView → Prop}

/-- An assertion that the boot establishes and every pass keeps is what the
remaining code returns in, along every run. -/
theorem runFrom_wp (start : PowerUp)
    (hboot : wp (sysTickHandler fl) (fun w => I w.motion) (fun w => A w.motion)
      (boot crc start.repair) (.powerUp start.flash start.pin))
    (hpass : ∀ input, Triple (sysTickHandler fl) (fun w => I w.motion) (fun w => A w.motion)
      (pass fl crc input) fun w => A w.motion)
    (schedule : List (Event Bool PassInput)) :
    wp (sysTickHandler fl) (fun w => I w.motion) (fun w => A w.motion)
      (runFrom fl crc start schedule).code (runFrom fl crc start schedule).state := by
  have hstart : wp (firmware fl crc).irq (fun w => I w.motion) (fun w => A w.motion)
      (start.config crc).code (start.config crc).state := hboot
  exact System.run_invariant (fun input w hw => hpass input w hw) hstart schedule

/-- What holds all along the boot and every pass holds in every reachable state. -/
theorem runFrom_invariant (start : PowerUp)
    (hboot : wp (sysTickHandler fl) (fun w => I w.motion) (fun w => A w.motion)
      (boot crc start.repair) (.powerUp start.flash start.pin))
    (hpass : ∀ input, Triple (sysTickHandler fl) (fun w => I w.motion) (fun w => A w.motion)
      (pass fl crc input) fun w => A w.motion)
    (schedule : List (Event Bool PassInput)) :
    I (runFrom fl crc start schedule).state.motion :=
  wp_invariant (I := fun w : World => I w.motion) (runFrom_wp start hboot hpass schedule)

/-- What the boot and every pass return in holds whenever a pass has returned. -/
theorem runFrom_returned (start : PowerUp)
    (hboot : wp (sysTickHandler fl) (fun w => I w.motion) (fun w => A w.motion)
      (boot crc start.repair) (.powerUp start.flash start.pin))
    (hpass : ∀ input, Triple (sysTickHandler fl) (fun w => I w.motion) (fun w => A w.motion)
      (pass fl crc input) fun w => A w.motion)
    (schedule : List (Event Bool PassInput))
    (hdone : (runFrom fl crc start schedule).code = .done) :
    A (runFrom fl crc start schedule).state.motion :=
  wp_returned (Q := fun w : World => A w.motion) (runFrom_wp start hboot hpass schedule) hdone

end

end Firmware
end MDCMotorControl
