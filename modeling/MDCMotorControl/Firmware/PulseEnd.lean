import MDCMotorControl.Firmware.MotionView

/-!
# How the step pulses end

Pulses stop when the timer is stopped, the driver is disabled or the processor
is reset.  The tick does the first two at the bottom of a deceleration ramp, and
the main loop does the last on command, whatever the motor is doing.

Main results:

- Theorem `tick_endings`: what the tick ends, it ends at the start frequency.
- Theorem `pulses_end_properly`: in every run, pulses end with the motor stopped,
  at the bottom of a ramp, or by a reset that has been commanded.
- Theorem `reboot_while_cruising`: such a reset does not wait for the motor.
-/

namespace MDCMotorControl
namespace Firmware

open Interruptible Motor Settings Modbus Panel FlashSector

/-! ## The end of the pulses -/

/-- Calls after which no step pulses are generated. -/
def endsPulses : DriveCall → Bool
  | .stopTimer => true
  | .enable state => !state
  | .systemReset => true
  | _ => false

/-- The motor was at rest, or decelerating and no faster than the start
frequency, or the call is a reset that has been commanded. -/
def EndsProperly (history : List Observation) (e : DriveEvent) : Prop :=
  e.state = .stopped ∨ e.state = .decelerating ∧ e.currentFreq ≤ e.shaft.startFreq ∨
    e.call = .systemReset ∧ commanded .systemReboot 1 history = true

instance (history : List Observation) (e : DriveEvent) :
    Decidable (EndsProperly history e) :=
  inferInstanceAs (Decidable (_ ∨ _ ∧ _ ∨ _ ∧ _))

/-- The calls of a trace that ended the pulses. -/
def endings (d : Drive) : List DriveEvent :=
  d.trace.filter fun e => endsPulses e.call

theorem mem_endings {d : Drive} {e : DriveEvent} :
    e ∈ endings d ↔ e ∈ d.trace ∧ endsPulses e.call = true := by
  simp [endings]

/-- Every end of the pulses so far was proper, and a pending reboot has been
commanded. -/
def PulseInv (v : MotionView) : Prop :=
  (∀ e ∈ endings v.drive, EndsProperly v.history e) ∧
    (v.pendingRebootCmd = true → commanded .systemReboot 1 v.history = true)

/-- In addition, a reboot has been commanded. -/
def RebootInv (v : MotionView) : Prop :=
  PulseInv v ∧ commanded .systemReboot 1 v.history = true

theorem commanded_cons {r : Register} {x : BitVec 16} {o : Observation}
    {history : List Observation} (h : commanded r x history = true) :
    commanded r x (o :: history) = true := by
  rw [commanded, List.any_cons, Bool.or_eq_true_iff]
  exact .inr h

theorem EndsProperly.cons {o : Observation} {history : List Observation} {e : DriveEvent}
    (h : EndsProperly history e) : EndsProperly (o :: history) e := by
  rcases h with h | h | ⟨hcall, hcommanded⟩
  · exact .inl h
  · exact .inr (.inl h)
  · exact .inr (.inr ⟨hcall, commanded_cons hcommanded⟩)

/-! ## The tick -/

/-- What the tick ends, it ends at the bottom of a deceleration ramp. -/
theorem tick_endings (fl : ℚ → ℚ) (d : Drive) {e : DriveEvent}
    (he : e ∈ endings (appMotorKinematicTick1ms fl d)) :
    e ∈ endings d ∨ e.state = .decelerating ∧ e.currentFreq ≤ e.shaft.startFreq := by
  have hcase := appMotorKinematicTick1ms_cases fl d
  generalize appMotorKinematicTick1ms fl d = d' at hcase he
  cases hcase with
  | idle => exact .inl he
  | up => exact .inl (by simpa [endings, endsPulses] using he)
  | reach => exact .inl (by simpa [endings, endsPulses] using he)
  | down => exact .inl (by simpa [endings, endsPulses] using he)
  | halt hstate hle =>
      have hmem : e = ⟨.tick, .enable false, d.currentState, d.lowered fl, d.shaft⟩ ∨
          e = ⟨.tick, .stopTimer, d.currentState, d.lowered fl, d.shaft⟩ ∨ e ∈ endings d := by
        simpa [endings, endsPulses, halMotorEnable, halMotorStopTimer, Drive.log] using he
      rcases hmem with rfl | rfl | hold
      · exact .inr ⟨hstate, hle⟩
      · exact .inr ⟨hstate, hle⟩
      · exact .inl hold

section

variable {fl : ℚ → ℚ} {crc : List (BitVec 32) → BitVec 32}

theorem pulseInv_stable : Stable (sysTickHandler fl) fun w => PulseInv w.motion := by
  rintro pin w ⟨hendings, hpending⟩
  constructor
  · intro e he
    have hdrive : e ∈ endings (appMotorKinematicTick1ms fl w.drive) := by
      simpa only [World.motion, sysTickHandler_drive] using he
    rcases tick_endings fl w.drive hdrive with hold | hbottom
    · exact sysTickHandler_history_mono (P := fun history => EndsProperly history e)
        (fun _ _ => EndsProperly.cons) (hendings e hold)
    · exact .inr (.inl hbottom)
  · intro hreboot
    have hbefore : w.ctl.mb.pendingRebootCmd = true := by
      simpa only [World.motion, sysTickHandler_ctl] using hreboot
    exact sysTickHandler_history_mono
      (P := fun history => commanded .systemReboot 1 history = true)
      (fun _ _ => commanded_cons) (hpending hbefore)

theorem rebootInv_stable : Stable (sysTickHandler fl) fun w => RebootInv w.motion :=
  pulseInv_stable.and fun _ _ h =>
    sysTickHandler_history_mono (P := fun history => commanded .systemReboot 1 history = true)
      (fun _ _ => commanded_cons) h

/-! ## The steps of a pass -/

theorem writeRegister_pendingRebootCmd (cfg : ModbusConfig) (r : Register) (v : BitVec 16)
    (h : (writeRegister fl cfg r v).pendingRebootCmd = true) :
    cfg.pendingRebootCmd = true ∨ r = .systemReboot ∧ v = 1 := by
  by_cases hv : v = 1#16 <;> cases r <;> simp_all [writeRegister]

/-- A received segment sets the reboot flag only if it carries the command. -/
theorem receive_pulseInv (p : Pbuf) (inputs : ℕ → ReadInputs) (w : World)
    (h : PulseInv w.motion) : PulseInv (receive fl p inputs w).motion := by
  refine ⟨fun e he => (h.1 e he).cons, fun hpending => ?_⟩
  have hcfg : (applyCommand fl w.ctl.mb p.command).pendingRebootCmd = true := by
    have hrecv : (modbusRecvCb fl inputs w.ctl.mb (some p) 0).cfg = _ := recv_cfg
    rw [← hrecv]
    exact hpending
  cases hcmd : p.command with
  | none =>
      rw [hcmd] at hcfg
      exact commanded_cons (h.2 hcfg)
  | some c =>
      rw [hcmd] at hcfg
      rcases writeRegister_pendingRebootCmd w.ctl.mb c.1 c.2 hcfg with hold | ⟨hr, hv⟩
      · exact commanded_cons (h.2 hold)
      · have hc : p.command = some (.systemReboot, 1) := by rw [hcmd, ← hr, ← hv]
        simp [commanded, World.motion, receive, World.observe, Observation.carries, hc]

/-- Drive code that ends no pulses keeps the invariant. -/
theorem onDrive_pulseInv {c : Code Drive} (hc : c.Keeps endings) :
    (onDrive c).Preserves fun w => PulseInv w.motion := by
  have hkeep : (onDrive c).Keeps fun w =>
      (endings w.drive, w.ctl.mb.pendingRebootCmd, w.history) := by
    refine onDrive_keeps_of hc fun d w hd => ?_
    rw [World.setDrive, hd]
  exact hkeep.preserves fun v => (∀ e ∈ v.1, EndsProperly v.2.2 e) ∧
    (v.2.1 = true → commanded .systemReboot 1 v.2.2 = true)

theorem appMotorCalculateProfile_keeps_endings (targetRPM accelTimeSec : ℚ)
    (microsteps : BitVec 16) :
    (appMotorCalculateProfile fl targetRPM accelTimeSec microsteps).Keeps endings :=
  .seq (.block_cons (.stmt fun _ => rfl) <|
    .block_cons (.stmt fun _ => rfl) <|
    .block_cons (.stmt fun _ => rfl) <|
    .block_cons (.stmt fun _ => rfl) <|
    .block_cons (.stmt fun _ => rfl) .block_nil) (.stmt fun _ => rfl)

theorem appMotorStart_keeps_endings (direction : BitVec 8) :
    (appMotorStart direction).Keeps endings := by
  have hbody : (startBody direction).Keeps endings :=
    .block_cons (.stmt fun _ => rfl) <|
      .block_cons (.stmt fun _ => rfl) <|
      .block_cons (.stmt fun _ => rfl) <|
      .block_cons (.stmt fun _ => rfl) <|
      .block_cons (.stmt fun d => by simp [endings, endsPulses]) <|
      .block_cons (.stmt fun _ => rfl) .block_nil
  exact .block_cons (.stmt fun _ => rfl) <|
    .block_cons (.branch hbody (.whenever hbody)) <|
    .block_cons (.stmt fun _ => rfl) .block_nil

theorem appMotorStop_keeps_endings : appMotorStop.Keeps endings :=
  .branch (.stmt fun _ => rfl) (.whenever (.stmt fun _ => rfl))

theorem startMotor_pulseInv : (startMotor fl).Preserves fun w => PulseInv w.motion :=
  .block_cons (fun _ => onDrive_pulseInv (appMotorCalculateProfile_keeps_endings _ _ _)) <|
    .block_cons (fun _ => onDrive_pulseInv (appMotorStart_keeps_endings _)) .block_nil

/-- The reset ends the pulses on command. -/
theorem rebootCommand_pulseInv :
    Triple (sysTickHandler fl) (fun w => PulseInv w.motion) (fun w => PulseInv w.motion)
      rebootCommand fun w => PulseInv w.motion := by
  refine .whenever pulseInv_stable (fun _ => id) pulseInv_stable (fun _ => id)
    (fun w hw hpending => ?_) (fun w hw _ => hw)
  have hstable : Stable (sysTickHandler fl) fun w => RebootInv w.motion := rebootInv_stable
  have hbody := Triple.of_preserves (I := fun w => PulseInv w.motion)
    (c := .block [.stmt (World.onMb ({ · with pendingRebootCmd := false })), .stmt id,
      .stmt (fun w => w.setDrive (w.drive.log .main .systemReset)), .halt])
    hstable (fun _ hv => hv.1) ?_
  · exact wp_mono (fun _ => id) (fun _ hv => hv.1) (hbody w ⟨hw, hw.2 hpending⟩)
  · refine ⟨fun v hv => ⟨⟨hv.1.1, fun _ => hv.2⟩, hv.2⟩, fun v hv => hv,
      fun v hv => ⟨⟨fun e he => ?_, hv.1.2⟩, hv.2⟩, trivial⟩
    have hmem : e = ⟨.main, .systemReset, v.drive.currentState, v.drive.currentFreq,
        v.drive.shaft⟩ ∨ e ∈ endings v.drive := by
      simpa [endings, endsPulses, World.motion, World.setDrive, Drive.log] using he
    rcases hmem with rfl | hold
    · exact .inr (.inr ⟨rfl, hv.2⟩)
    · exact hv.1.1 e hold

theorem pass_pulseInv (input : PassInput) :
    Triple (sysTickHandler fl) (fun w => PulseInv w.motion) (fun w => PulseInv w.motion)
      (pass fl crc input) fun w => PulseInv w.motion := by
  have hkeep : ∀ c : Code World, c.Preserves (fun w => PulseInv w.motion) →
      Triple (sysTickHandler fl) (fun w => PulseInv w.motion) (fun w => PulseInv w.motion) c
        fun w => PulseInv w.motion :=
    fun c hc => .of_preserves pulseInv_stable (fun _ => id) hc
  refine pass_triple fl crc input pulseInv_stable pulseInv_stable (fun _ => id) (fun _ => id)
    receive_pulseInv (hkeep _ ⟨fun _ hw => hw, fun _ hw => hw, trivial⟩) ?_ ?_
  · simp only [List.mem_cons, List.not_mem_nil, or_false, forall_eq_or_imp, forall_eq]
    exact ⟨hkeep _ (.whenever ⟨fun _ hw => hw, fun _ hw => hw, trivial⟩),
      hkeep _ (.whenever ⟨fun _ hw => hw, fun _ hw => hw, trivial⟩),
      hkeep _ (.whenever ⟨fun _ hw => hw, fun _ hw => hw, trivial⟩), rebootCommand_pulseInv⟩
  · exact motorStateMachine_triple fl pulseInv_stable pulseInv_stable (fun _ => id)
      (fun _ => id) (fun w hw _ _ => hkeep _ startMotor_pulseInv w hw)
      (fun w hw _ _ => hkeep _ (onDrive_pulseInv appMotorStop_keeps_endings) w hw)
      fun _ hv _ => hv

/-- The boot finds the motor stopped and leaves it so. -/
theorem boot_pulseInv (ops : Outcomes 12) :
    Triple (sysTickHandler fl) (fun w => PulseInv w.motion)
      (fun w => PulseInv w.motion ∧ w.drive.currentState = .stopped) (boot crc ops)
      fun w => PulseInv w.motion := by
  have hstable : Stable (sysTickHandler fl)
      fun w => PulseInv w.motion ∧ w.drive.currentState = .stopped := by
    refine pulseInv_stable.and fun pin w hw => ?_
    rwa [sysTickHandler_drive, appMotorKinematicTick1ms_of_stopped fl hw]
  refine (Triple.of_preserves hstable (fun _ hw => hw.1) ?_).conseq (fun _ => id)
    fun _ hw => hw.1
  refine boot_preserves (P := fun v => PulseInv v ∧ v.drive.currentState = .stopped) ops
    (fun w hw => ⟨⟨fun e he => ?_, hw.1.2⟩, hw.2⟩)
    (fun w hw => ⟨⟨fun e he => (hw.1.1 e he).cons, fun h => commanded_cons (hw.1.2 h)⟩, hw.2⟩)
    fun _ hw => hw
  have hmem : e = ⟨.main, .enable false, w.drive.currentState, w.drive.currentFreq,
      w.drive.shaft⟩ ∨ e ∈ endings w.drive := by
    simpa [endings, endsPulses, World.motion, World.setDrive, halMotorInit,
      halMotorSetDirection, halMotorEnable, Drive.log] using he
  rcases hmem with rfl | hold
  · exact .inl hw.2
  · exact hw.1.1 e hold

end

/-! ## Main results -/

/-- In every run, every call that ends the step pulses is made with the motor
stopped, or by the tick that has brought a decelerating motor down to the start
frequency, or is a reset that a reboot command has asked for. -/
theorem pulses_end_properly (fl : ℚ → ℚ) (crc : List (BitVec 32) → BitVec 32)
    (start : PowerUp) (schedule : List (Event Bool PassInput)) :
    let w := (runFrom fl crc start schedule).state
    ∀ e ∈ w.drive.trace, endsPulses e.call = true → EndsProperly w.history e := by
  intro w e he hends
  have hinv : PulseInv w.motion :=
    runFrom_invariant (A := PulseInv) (I := PulseInv) start
      (boot_pulseInv start.repair _ ⟨⟨by simp [endings, World.motion, World.powerUp,
        Drive.powerUp], fun h => nomatch h⟩, rfl⟩) pass_pulseInv schedule
  exact hinv.1 e (mem_endings.mpr ⟨he, hends⟩)

/-- A stop command and the millisecond of the ramp down. -/
def stopSchedule : List (Event Bool PassInput) :=
  cruiseAndThen (.enter (writes [(.motorCtrl, 0)]) :: List.replicate 50 .main ++ [.irq true])

/-- After a stop command the timer is stopped at the start frequency. -/
theorem pulses_end_properly_stop :
    let w := (runFrom id (fun _ => 0) (emptyFlash false) stopSchedule).state
    ∃ e ∈ w.drive.trace, e.call = .stopTimer ∧ e.currentFreq = 500 ∧
      EndsProperly w.history e :=
  ⟨⟨.tick, .stopTimer, .decelerating, 500,
      calculateProfile id 8 0 5000 initialShaft⟩, by decide +kernel, rfl, rfl,
    pulses_end_properly id (fun _ => 0) (emptyFlash false) stopSchedule _ (by decide +kernel) rfl⟩

/-- A reboot command resets the processor while the motor is cruising. -/
theorem reboot_while_cruising :
    let w := (runFrom id (fun _ => 0) (emptyFlash false)
      (cruiseAndThen (.enter (writes [(.systemReboot, 1)]) :: List.replicate 50 .main))).state
    ∃ e ∈ w.drive.trace, e.call = .systemReset ∧ e.state = .cruising ∧
      e.shaft.startFreq < e.currentFreq := by
  refine ⟨⟨.main, .systemReset, .cruising, 2000, calculateProfile id 8 0 5000 initialShaft⟩, ?_⟩
  decide +kernel

end Firmware
end MDCMotorControl
