import MDCMotorControl.Firmware.MainLoop

/-!
# Commands and peripherals

The handler of a register write changes the Modbus structure and sets a flag; the
pass acts on the flag later and brings the peripheral into agreement with the
structure.  Between the two the peripheral may disagree, but then its flag is
pending.

Main results:

- Theorem `command_acknowledges`: each command clears its own flag, no other one,
  and keeps the agreement.
- Theorem `pass_agrees`: a pass leaves no flag pending.
- Theorem `peripherals_after_pass`: after every pass of every run the peripherals
  agree with the Modbus structure.
-/

namespace MDCMotorControl
namespace Firmware

open Interruptible Motor Settings Modbus Panel FlashSector

/-! ## The polarity bit -/

/-- `HAL_Encoder_SetCountDirection`: the bit is clear for the normal direction. -/
def halEncoderSetCountDirection (direction : Bool) (ctl : Control) : Control :=
  if direction then { ctl with cc1p := false } else { ctl with cc1p := true }

/-- `App_Encoder_SetDirection` passes the negated argument on, and the bit negates
it again. -/
theorem appEncoderSetDirection_eq (reversed : Bool) (ctl : Control) :
    appEncoderSetDirection reversed ctl = halEncoderSetCountDirection (!reversed) ctl := by
  cases reversed <;> rfl

/-! ## Flags -/

/-- The pending flags of `ModbusConfig_t`. -/
inductive Flag where
  | motorStart
  | motorStop
  | streamStart
  | streamStop
  | encoderDir
  | baudChange
  | saveCmd
  | rebootCmd
deriving DecidableEq, Repr

/-- The value of a flag. -/
def pending (mb : ModbusConfig) : Flag → Bool
  | .motorStart => mb.pendingMotorStart
  | .motorStop => mb.pendingMotorStop
  | .streamStart => mb.pendingStreamStart
  | .streamStop => mb.pendingStreamStop
  | .encoderDir => mb.pendingEncoderDir
  | .baudChange => mb.pendingBaudChange
  | .saveCmd => mb.pendingSaveCmd
  | .rebootCmd => mb.pendingRebootCmd

/-- A peripheral that disagrees with the Modbus structure has its flag pending.
The stream is switched together with its variable. -/
structure Agrees (ctl : Control) : Prop where
  polarity : ctl.mb.pendingEncoderDir = false → ctl.cc1p = ctl.mb.encoderReversed
  baudRate : ctl.mb.pendingBaudChange = false → ctl.uartBaudRate = ctl.mb.uartBaudRate
  stepInterrupts : ctl.stepInterrupts = ctl.mb.streamActive

section

variable {fl : ℚ → ℚ} {crc : List (BitVec 32) → BitVec 32} {ops : Outcomes 12}

/-- A register write keeps the agreement: it sets the flag of what it changes. -/
theorem agrees_writeRegister {ctl : Control} (h : Agrees ctl) (r : Register) (v : BitVec 16) :
    Agrees { ctl with mb := writeRegister fl ctl.mb r v } := by
  obtain ⟨hpolarity, hbaud, hstep⟩ := h
  cases r with
  | encoderDir => exact ⟨by simp [writeRegister], hbaud, hstep⟩
  | uartBaud => exact ⟨hpolarity, by simp [writeRegister], hstep⟩
  | motorCtrl =>
      simp only [writeRegister]
      split <;> exact ⟨hpolarity, hbaud, hstep⟩
  | streamCtrl =>
      simp only [writeRegister]
      split <;> exact ⟨hpolarity, hbaud, hstep⟩
  | saveSettings =>
      simp only [writeRegister]
      split <;> exact ⟨hpolarity, hbaud, hstep⟩
  | systemReboot =>
      simp only [writeRegister]
      split <;> exact ⟨hpolarity, hbaud, hstep⟩
  | _ => exact ⟨hpolarity, hbaud, hstep⟩

theorem agrees_receive {w : World} (h : Agrees w.ctl) (p : Pbuf) (inputs : ℕ → ReadInputs) :
    Agrees (receive fl p inputs w).ctl := by
  show Agrees { w.ctl with mb := (modbusRecvCb fl inputs w.ctl.mb (some p) 0).cfg }
  rw [recv_cfg]
  cases p.command with
  | none => exact h
  | some c => exact agrees_writeRegister h c.1 c.2

/-! ## The commands of a pass -/

/-- The code of `main` that acts on a flag. -/
def Flag.command (crc : List (BitVec 32) → BitVec 32) (ops : Outcomes 12) : Flag → Code World
  | motorStart => motorStartCommand
  | motorStop => motorStopCommand
  | streamStart => streamStartCommand
  | streamStop => streamStopCommand
  | encoderDir => encoderDirCommand
  | baudChange => baudChangeCommand
  | saveCmd => saveCommand crc ops
  | rebootCmd => rebootCommand

/-- A conditional whose condition reads the control state. -/
theorem determined_whenever {c : World → Bool} {body : Code World} (k : Control → Bool)
    (hc : ∀ w, c w = k w.ctl) (hbody : body.Determined World.ctl) :
    (Code.whenever c body).Determined World.ctl :=
  .whenever (fun w v h => by rw [hc, hc, h]) hbody

theorem determined_onCtl (f : Control → Control) :
    (Code.stmt (World.onCtl f)).Determined World.ctl :=
  .stmt_of f fun _ => rfl

theorem determined_onMb (f : ModbusConfig → ModbusConfig) :
    (Code.stmt (World.onMb f)).Determined World.ctl :=
  .stmt_of (fun ctl => { ctl with mb := f ctl.mb }) fun _ => rfl

/-- What a command does to the control state depends on the control state only. -/
theorem command_determined (f : Flag) : (f.command crc ops).Determined World.ctl := by
  cases f with
  | motorStart =>
      exact determined_whenever (·.mb.pendingMotorStart) (fun _ => rfl) <|
        .block_cons (determined_onMb _) <| .block_cons (determined_onCtl _) .block_nil
  | motorStop =>
      exact determined_whenever (·.mb.pendingMotorStop) (fun _ => rfl) <|
        .block_cons (determined_onMb _) <| .block_cons (determined_onCtl _) .block_nil
  | streamStart =>
      exact determined_whenever (·.mb.pendingStreamStart) (fun _ => rfl) <|
        .block_cons (determined_onMb _) <| .block_cons
          (determined_whenever (!·.mb.streamActive) (fun _ => rfl) <|
            .block_cons (determined_onCtl _) <| .block_cons (determined_onMb _) .block_nil)
          .block_nil
  | streamStop =>
      exact determined_whenever (·.mb.pendingStreamStop) (fun _ => rfl) <|
        .block_cons (determined_onMb _) <| .block_cons
          (determined_whenever (·.mb.streamActive) (fun _ => rfl) <|
            .block_cons (determined_onCtl _) <| .block_cons (determined_onMb _) .block_nil)
          .block_nil
  | encoderDir =>
      exact determined_whenever (·.mb.pendingEncoderDir) (fun _ => rfl) <|
        .block_cons (determined_onMb _) <| .block_cons (determined_onCtl _) .block_nil
  | baudChange =>
      exact determined_whenever (·.mb.pendingBaudChange) (fun _ => rfl) <|
        .block_cons (determined_onMb _) <| .block_cons (determined_onCtl _) <|
        .block_cons (determined_whenever (·.bStreamingState) (fun _ => rfl)
          (determined_onCtl _)) <| .block_cons (determined_onCtl _) <|
        .block_cons (determined_whenever (·.bStreamingState) (fun _ => rfl)
          (determined_onCtl _)) .block_nil
  | saveCmd =>
      refine determined_whenever (·.mb.pendingSaveCmd) (fun _ => rfl) <|
        .block_cons (determined_onMb _) <| .block_cons (determined_onCtl _) <|
        .block_cons (.branch ?_ ?_ (determined_onCtl _)) .block_nil
      · intro w v h
        rw [h]
      · exact ⟨(determined_onCtl _).1, trivial⟩
  | rebootCmd =>
      exact determined_whenever (·.mb.pendingRebootCmd) (fun _ => rfl) <|
        .block_cons (determined_onMb _) <| .block_cons (.stmt fun _ _ => id) <|
        .block_cons (.stmt fun _ _ => id) <| .block_cons trivial .block_nil

/-- The code clears one flag, no other one, and keeps the agreement. -/
def Acknowledges (f : Flag) (c : Code World) : Prop :=
  ∀ w, (∀ g, pending (c.exec w).ctl.mb g = (g != f && pending w.ctl.mb g)) ∧
    (Agrees w.ctl → Agrees (c.exec w).ctl)

/-- Nothing is to be done for a flag that is not pending. -/
theorem Acknowledges.whenever {f : Flag} {body : Code World} (h : Acknowledges f body) :
    Acknowledges f (.whenever (fun w => pending w.ctl.mb f) body) := by
  intro w
  rw [Code.exec_whenever]
  by_cases hflag : pending w.ctl.mb f = true
  · rw [if_pos hflag]
    exact h w
  · rw [if_neg hflag]
    refine ⟨fun g => ?_, id⟩
    by_cases hg : g = f
    · subst hg
      simpa using hflag
    · simp [hg]

/-- Code that computes a function of the control state. -/
theorem Acknowledges.of_ctl {f : Flag} {c : Code World} (F : Control → Control)
    (hctl : ∀ w, (c.exec w).ctl = F w.ctl)
    (hpending : ∀ ctl g, pending (F ctl).mb g = (g != f && pending ctl.mb g))
    (hagrees : ∀ ctl, Agrees ctl → Agrees (F ctl)) : Acknowledges f c := by
  intro w
  rw [hctl]
  exact ⟨hpending w.ctl, hagrees w.ctl⟩

/-- A command acknowledges its flag. -/
theorem command_acknowledges (f : Flag) : Acknowledges f (f.command crc ops) := by
  cases f with
  | motorStart =>
      refine .whenever fun w => ⟨fun g => ?_, fun h => ⟨h.polarity, h.baudRate, h.stepInterrupts⟩⟩
      cases g <;> rfl
  | motorStop =>
      refine .whenever fun w => ⟨fun g => ?_, fun h => ⟨h.polarity, h.baudRate, h.stepInterrupts⟩⟩
      cases g <;> rfl
  | rebootCmd =>
      refine .whenever fun w => ⟨fun g => ?_, fun h => ⟨h.polarity, h.baudRate, h.stepInterrupts⟩⟩
      cases g <;> rfl
  | encoderDir =>
      refine .whenever fun w => ⟨fun g => ?_, fun h => ⟨fun _ => rfl, h.baudRate, h.stepInterrupts⟩⟩
      cases g <;> rfl
  | streamStart =>
      apply Acknowledges.whenever
      apply Acknowledges.of_ctl fun ctl =>
        { ctl with
          mb := { ctl.mb with pendingStreamStart := false, streamActive := true }
          stepInterrupts := if ctl.mb.streamActive then ctl.stepInterrupts else true }
      · intro w
        cases hactive : w.ctl.mb.streamActive <;>
          simp [Code.exec_whenever, hactive, World.onMb, World.onCtl, setStepInterrupts]
      · intro ctl g
        cases g <;> rfl
      · intro ctl h
        refine ⟨h.polarity, h.baudRate, ?_⟩
        have hstep := h.stepInterrupts
        cases hactive : ctl.mb.streamActive <;> simp [hactive, hstep]
  | streamStop =>
      apply Acknowledges.whenever
      apply Acknowledges.of_ctl fun ctl =>
        { ctl with
          mb := { ctl.mb with pendingStreamStop := false, streamActive := false }
          stepInterrupts := if ctl.mb.streamActive then false else ctl.stepInterrupts }
      · intro w
        cases hactive : w.ctl.mb.streamActive <;>
          simp [Code.exec_whenever, hactive, World.onMb, World.onCtl, setStepInterrupts]
      · intro ctl g
        cases g <;> rfl
      · intro ctl h
        refine ⟨h.polarity, h.baudRate, ?_⟩
        have hstep := h.stepInterrupts
        cases hactive : ctl.mb.streamActive <;> simp [hactive, hstep]
  | baudChange =>
      -- the stream is stopped and started again around the change
      apply Acknowledges.whenever
      apply Acknowledges.of_ctl fun ctl =>
        { ctl with
          mb := { ctl.mb with pendingBaudChange := false }
          bStreamingState := ctl.mb.streamActive
          stepInterrupts := if ctl.mb.streamActive then true else ctl.stepInterrupts
          uartBaudRate := ctl.mb.uartBaudRate }
      · intro w
        cases hactive : w.ctl.mb.streamActive <;>
          simp [Code.whenever, Code.branch, hactive, World.onMb, World.onCtl, setStepInterrupts]
      · intro ctl g
        cases g <;> rfl
      · intro ctl h
        refine ⟨h.polarity, fun _ => rfl, ?_⟩
        have hstep := h.stepInterrupts
        cases hactive : ctl.mb.streamActive <;> simp [hactive, hstep]
  | saveCmd =>
      apply Acknowledges.whenever
      apply Acknowledges.of_ctl fun ctl =>
        let filled := fillNewCfg { ctl with mb := { ctl.mb with pendingSaveCmd := false } }
        { filled with storage := (appSettingsSave crc ops filled.newCfg filled.storage).1 }
      · intro w
        simp only [Code.block_cons, Code.block_nil, Code.seq_stmt, Code.seq_done_right,
          Code.exec_act, Code.exec_branch, Code.exec_halt, Code.exec_stmt]
        split <;> rfl
      · intro ctl g
        cases g <;> rfl
      · exact fun ctl h => ⟨h.polarity, h.baudRate, h.stepInterrupts⟩

/-! ## One pass -/

/-- The peripherals agree, and the flags of a list are clear. -/
def Cleared (fs : List Flag) (ctl : Control) : Prop :=
  Agrees ctl ∧ ∀ f ∈ fs, pending ctl.mb f = false

theorem cleared_stable (fs : List Flag) :
    Stable (sysTickHandler fl) fun w => Cleared fs w.ctl := by
  intro pin w hw
  rwa [sysTickHandler_ctl]

/-- Code that leaves the control state alone clears nothing and breaks nothing. -/
theorem cleared_of_keeps (fs : List Flag) {c : Code World} (hc : c.Keeps World.ctl) :
    Triple (sysTickHandler fl) (fun _ => True) (fun w => Cleared fs w.ctl) c
      fun w => Cleared fs w.ctl :=
  .of_preserves (cleared_stable fs) (fun _ _ => trivial) (hc.preserves _)

/-- A command clears one flag more. -/
theorem command_cleared (fs : List Flag) (f : Flag) :
    Triple (sysTickHandler fl) (fun _ => True) (fun w => Cleared fs w.ctl) (f.command crc ops)
      fun w => Cleared (f :: fs) w.ctl := by
  apply Triple.of_exec (sysTickHandler_ctl fl) (command_determined f)
  rintro w ⟨hagrees, hclear⟩
  obtain ⟨hpending, hkeep⟩ := @command_acknowledges crc ops f w
  refine ⟨hkeep hagrees, fun g hg => ?_⟩
  rw [hpending g]
  rcases List.mem_cons.mp hg with rfl | hg
  · simp
  · rw [hclear g hg, Bool.and_false]

theorem receive_cleared (deliveries : List (Pbuf × (ℕ → ReadInputs))) :
    (mxLwipProcess fl deliveries).Preserves fun w => Cleared [] w.ctl :=
  mxLwipProcess_preserves fl
    (fun p inputs _ hw => ⟨agrees_receive hw.1 p inputs, fun f hf => by cases hf⟩) deliveries

/-- A statement outside the Modbus structure and the peripherals. -/
theorem cleared_of_eq {fs : List Flag} {ctl ctl' : Control} (h : Cleared fs ctl)
    (hmb : ctl'.mb = ctl.mb) (hcc1p : ctl'.cc1p = ctl.cc1p)
    (hstep : ctl'.stepInterrupts = ctl.stepInterrupts)
    (hbaud : ctl'.uartBaudRate = ctl.uartBaudRate) : Cleared fs ctl' := by
  obtain ⟨⟨hpolarity, hrate, hinterrupts⟩, hclear⟩ := h
  rw [Cleared, hmb]
  refine ⟨⟨?_, ?_, ?_⟩, hclear⟩
  · rwa [hmb, hcc1p]
  · rwa [hmb, hbaud]
  · rwa [hmb, hstep]

theorem sampleInputs_cleared (fs : List Flag) :
    sampleInputs.Preserves fun w => Cleared fs w.ctl :=
  .block_cons (.stmt fun _ hw => cleared_of_eq hw rfl rfl rfl rfl) <|
    .block_cons (.stmt fun _ hw => cleared_of_eq hw rfl rfl rfl rfl) .block_nil

theorem switchEdge_cleared (fs : List Flag) :
    switchEdge.Preserves fun w => Cleared fs w.ctl :=
  .whenever <| .block_cons (.stmt fun _ hw => cleared_of_eq hw rfl rfl rfl rfl) <|
    .block_cons (.stmt fun _ hw => cleared_of_eq hw rfl rfl rfl rfl) .block_nil

/-- The commands of a pass up to the reboot command. -/
def commandsBeforeReboot : Code World :=
  .block [switchEdge, motorStartCommand, motorStopCommand, streamStartCommand,
    streamStopCommand, baudChangeCommand, encoderDirCommand]

theorem commands_eq : commands = commandsBeforeReboot.seq rebootCommand := by
  rw [commandsBeforeReboot, ← Code.block_singleton rebootCommand, ← Code.block_append]
  rfl

theorem commandsBeforeReboot_returns : commandsBeforeReboot.Returns :=
  .seq (.whenever trivial) <| .seq (.whenever trivial) <| .seq (.whenever trivial) <|
    .seq (.whenever <| .seq (c := .stmt _) trivial <| .seq (.whenever trivial) trivial) <|
    .seq (.whenever <| .seq (c := .stmt _) trivial <| .seq (.whenever trivial) trivial) <|
    .seq (.whenever <| .seq (c := .stmt _) trivial <| .seq (c := .stmt _) trivial <|
      .seq (.whenever trivial) <| .seq (c := .stmt _) trivial <|
      .seq (.whenever trivial) trivial) <|
    .seq (.whenever trivial) trivial

/-- They act on their flags. -/
theorem commandsBeforeReboot_cleared :
    Triple (sysTickHandler fl) (fun _ => True) (fun w => Cleared [.saveCmd] w.ctl)
      commandsBeforeReboot fun w =>
        Cleared [.encoderDir, .baudChange, .streamStop, .streamStart, .motorStop, .motorStart,
          .saveCmd] w.ctl := by
  have hcommand : ∀ (fs : List Flag) (f : Flag), Triple (sysTickHandler fl) (fun _ => True)
      (fun w => Cleared fs w.ctl) (f.command (fun _ => 0) flashCompletes)
      fun w => Cleared (f :: fs) w.ctl :=
    command_cleared
  exact (Triple.of_preserves (cleared_stable _) (fun _ _ => trivial) (switchEdge_cleared _)).seq <|
    (hcommand _ .motorStart).seq <| (hcommand _ .motorStop).seq <|
    (hcommand _ .streamStart).seq <| (hcommand _ .streamStop).seq <|
    (hcommand _ .baudChange).seq <| (hcommand _ .encoderDir).seq <|
    .done (cleared_stable _) (fun _ _ => trivial) fun _ => id

/-- A pass that returns has acted on every flag. -/
theorem pass_agrees (input : PassInput) :
    Triple (sysTickHandler fl) (fun _ => True) (fun w => Agrees w.ctl) (pass fl crc input)
      fun w => Agrees w.ctl ∧ ∀ f, pending w.ctl.mb f = false := by
  have hkeep : ∀ {fs : List Flag} {c : Code World}, c.Preserves (fun w => Cleared fs w.ctl) →
      Triple (sysTickHandler fl) (fun _ => True) (fun w => Cleared fs w.ctl) c
        fun w => Cleared fs w.ctl :=
    fun hc => .of_preserves (cleared_stable _) (fun _ _ => trivial) hc
  have hcommand : ∀ (fs : List Flag) (f : Flag), Triple (sysTickHandler fl) (fun _ => True)
      (fun w => Cleared fs w.ctl) (f.command crc input.save) fun w => Cleared (f :: fs) w.ctl :=
    command_cleared
  have hcommands : Triple (sysTickHandler fl) (fun _ => True)
      (fun w => Cleared [.saveCmd] w.ctl) commands fun w =>
        Cleared [.rebootCmd, .encoderDir, .baudChange, .streamStop, .streamStart, .motorStop,
          .motorStart, .saveCmd] w.ctl := by
    rw [commands_eq]
    exact commandsBeforeReboot_cleared.seq (hcommand _ .rebootCmd)
  have hpass : Triple (sysTickHandler fl) (fun _ => True) (fun w => Cleared [] w.ctl)
      (pass fl crc input) fun w =>
        Cleared [.rebootCmd, .encoderDir, .baudChange, .streamStop, .streamStart, .motorStop,
          .motorStart, .saveCmd] w.ctl :=
    (hkeep (receive_cleared _)).seq <| (hkeep (sampleInputs_cleared _)).seq <|
      (hcommand [] .saveCmd).seq <| hcommands.seq <|
      cleared_of_keeps _ (.block_cons
        (motorStateMachine_keeps fl (fun _ _ => rfl) fun _ _ => rfl) .block_nil)
  refine hpass.conseq (fun w hw => ⟨hw, fun f hf => by cases hf⟩) fun w hw => ⟨hw.1, fun f => ?_⟩
  apply hw.2
  cases f <;> decide

/-! ## The boot -/

/-- The boot after it has loaded the settings. -/
def bootAfterInit : Code World :=
  .block [
    .stmt (fun w => w.setDrive (halMotorInit w.drive)),
    .stmt (World.onCtl fun ctl => appEncoderSetDirection (ctl.settings.encoderReversed != 0) ctl),
    .stmt (fun w =>
      ({ w with switch := appSwitchInit w.switchPin w.switch }).observe
        (.switchInit (halSwitchGetRawState w.switchPin))),
    .stmt (fun w => { w with lamps := appLampInit w.lamps }),
    .stmt (World.onCtl fun ctl => { ctl with uartBaudRate := ctl.settings.uartBaudRate }),
    .stmt id,
    .stmt (World.onCtl syncModbus)]

theorem boot_eq (ops : Outcomes 12) : boot crc ops = (settingsInit crc ops).seq bootAfterInit := rfl

theorem bootAfterInit_determined : bootAfterInit.Determined World.ctl :=
  .block_cons (.stmt fun _ _ => id) <| .block_cons (determined_onCtl _) <|
    .block_cons (.stmt fun _ _ => id) <| .block_cons (.stmt fun _ _ => id) <|
    .block_cons (determined_onCtl _) <| .block_cons (.stmt fun _ _ => id) <|
    .block_cons (determined_onCtl _) .block_nil

/-- The boot brings the peripherals into agreement with the loaded settings. -/
theorem boot_agrees (ops : Outcomes 12) :
    Triple (sysTickHandler fl) (fun _ => True)
      (fun w => w.ctl.stepInterrupts = w.ctl.mb.streamActive) (boot crc ops)
      fun w => Agrees w.ctl := by
  have hstable : Stable (sysTickHandler fl)
      fun w => w.ctl.stepInterrupts = w.ctl.mb.streamActive := by
    intro pin w hw
    rwa [sysTickHandler_ctl]
  have hinit : (settingsInit crc ops).Preserves
      fun w => w.ctl.stepInterrupts = w.ctl.mb.streamActive :=
    .branch ⟨fun _ => id, trivial⟩ (.stmt fun _ => id)
  rw [boot_eq]
  refine (Triple.of_preserves hstable (fun _ _ => trivial) hinit).seq ?_
  apply Triple.of_exec (P := fun ctl => ctl.stepInterrupts = ctl.mb.streamActive)
    (Q := Agrees) (sysTickHandler_ctl fl) bootAfterInit_determined
  exact fun w hw => ⟨fun _ => rfl, fun _ => rfl, hw⟩

/-- The boot code and every pass return with the peripherals in agreement. -/
theorem runFrom_agrees (start : PowerUp) (schedule : List (Event Bool PassInput)) :
    wp (sysTickHandler fl) (fun _ => True) (fun w => Agrees w.ctl)
      (runFrom fl crc start schedule).code (runFrom fl crc start schedule).state := by
  have hboot : wp (firmware fl crc).irq (fun _ => True) (fun w => Agrees w.ctl)
      (start.config crc).code (start.config crc).state :=
    boot_agrees start.repair _ rfl
  refine System.run_invariant (fun input w hw => ?_) hboot schedule
  exact wp_mono (fun _ => id) (fun _ h => h.1) (pass_agrees input w hw)

end

/-! ## Main result -/

/-- At the end of every pass of every run all flags are clear, the polarity bit is
set exactly when the encoder is reversed, the UART handle has the baud rate of the
Modbus structure, and the step interrupts are unmasked exactly when the stream is
active. -/
theorem peripherals_after_pass (fl : ℚ → ℚ) (crc : List (BitVec 32) → BitVec 32)
    (start : PowerUp) (before during : List (Event Bool PassInput)) (input : PassInput)
    (hready : (runFrom fl crc start before).code = .done)
    (hduring : ∀ e ∈ during, e.isEnter = false)
    (hreturned : (runFrom fl crc start (before ++ .enter input :: during)).code = .done) :
    let ctl := (runFrom fl crc start (before ++ .enter input :: during)).state.ctl
    (∀ f : Flag, pending ctl.mb f = false) ∧ ctl.cc1p = ctl.mb.encoderReversed ∧
      ctl.uartBaudRate = ctl.mb.uartBaudRate ∧ ctl.stepInterrupts = ctl.mb.streamActive := by
  have hagrees : Agrees (runFrom fl crc start before).state.ctl :=
    wp_returned (Q := fun w : World => Agrees w.ctl) (runFrom_agrees start before) hready
  obtain ⟨hafter, hclear⟩ := @System.body_returned _ _ _ _ _ (firmware fl crc) before during input
    (start.config crc) hready hduring hreturned (pass_agrees input _ hagrees)
  exact ⟨hclear, hafter.polarity (hclear .encoderDir), hafter.baudRate (hclear .baudChange),
    hafter.stepInterrupts⟩

/-- A start of the stream, another baud rate and a reversed encoder in one batch. -/
theorem peripherals_after_pass_batch :
    let ctl := (runFrom id (fun _ => 0) (emptyFlash false) (bootAndPasses
      [writes [(.streamCtrl, 1), (.uartBaud, 1152), (.encoderDir, 1)]])).state.ctl
    ctl.cc1p = true ∧ ctl.uartBaudRate = 115200 ∧ ctl.stepInterrupts = true := by
  intro ctl
  obtain ⟨_, hpolarity, hbaud, hstep⟩ := peripherals_after_pass id (fun _ => 0)
    (emptyFlash false) (bootAndPasses []) (List.replicate 50 .main)
    (writes [(.streamCtrl, 1), (.uartBaud, 1152), (.encoderDir, 1)])
    (Code.returned_iff.mp (by decide +kernel)) (by decide)
    (Code.returned_iff.mp (by decide +kernel))
  exact ⟨hpolarity.trans (by decide +kernel), hbaud.trans (by decide +kernel),
    hstep.trans (by decide +kernel)⟩

end Firmware
end MDCMotorControl
