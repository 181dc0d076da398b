import MDCMotorControl.Library.Binary32
import MDCMotorControl.Modbus.Server
import MDCMotorControl.Panel.Lamp
import MDCMotorControl.Panel.Switch

/-!
# The firmware: boot, main loop and system tick

`main` boots the modules and then repeats one pass over the network, the inputs,
the pending commands and the motor state machine.  `SysTick_Handler` preempts it
at any statement.

The state is split by who writes it: the control state is written by the main
context only, the drive, the switch and the lamps by both.  A pass takes from
the environment the segments that the network delivers in it and the outcome of
the Flash operations of a save.

Main definitions and results:

- Definitions `boot`, `pass` and `sysTickHandler`: the three pieces of code.
- Definition `firmware`: the main loop preempted by the tick.
- Theorem `sysTickHandler_ctl`: a tick leaves the control state alone.
-/

namespace MDCMotorControl
namespace Firmware

open Interruptible Motor Settings Modbus Panel FlashSector

/-! ## State -/

/-- What the record of a run keeps apart from the motor calls. -/
inductive Observation where
  | received (p : Pbuf)
  | switchInit (level : Bool)
  | switchChanged (level : Bool)

/-- Whether an observation is the receipt of a register write. -/
def Observation.carries (r : Register) (v : BitVec 16) : Observation → Bool
  | received p => p.command = some (r, v)
  | switchInit _ => false
  | switchChanged _ => false

/-- Whether a register write has been received. -/
def commanded (r : Register) (v : BitVec 16) (history : List Observation) : Bool :=
  history.any (·.carries r v)

/-- The statics of `main.c`, the structures it shares with the Modbus and
settings modules, and the peripheral registers that it sets through them. -/
structure Control where
  mb : ModbusConfig
  storage : Storage
  newCfg : SystemSettings
  lastSwitchState : Bool
  sysMotorRunRequest : Bool
  currentSwitchState : Bool
  bStreamingState : Bool
  motorState : MotorState
  /-- The polarity bit of channel 1 of the encoder timer. -/
  cc1p : Bool
  /-- Whether EXTI lines 6 and 7 are unmasked. -/
  stepInterrupts : Bool
  /-- The baud rate in the UART handle. -/
  uartBaudRate : BitVec 32

/-- The state of the firmware, with the level of the switch pin. -/
structure World where
  ctl : Control
  drive : Drive
  switch : Switch
  lamps : Lamps
  switchPin : Bool
  /-- Most recent observation first. -/
  history : List Observation

namespace World

/-- Apply a statement of the main context to the control state. -/
def onCtl (f : Control → Control) (w : World) : World :=
  { w with ctl := f w.ctl }

/-- Apply a statement to the Modbus configuration. -/
def onMb (f : ModbusConfig → ModbusConfig) (w : World) : World :=
  w.onCtl fun ctl => { ctl with mb := f ctl.mb }

/-- Replace the drive. -/
def setDrive (d : Drive) (w : World) : World :=
  { w with drive := d }

/-- Replace the lamps. -/
def setLamps (lamps : Lamps) (w : World) : World :=
  { w with lamps := lamps }

/-- Record an observation. -/
def observe (o : Observation) (w : World) : World :=
  { w with history := o :: w.history }

end World

/-- Drive code in the firmware. -/
def onDrive (c : Code Drive) : Code World :=
  c.lift World.drive World.setDrive

/-- Drive code that leaves a view of the drive alone leaves alone what depends on
that view and on the rest of the state. -/
theorem onDrive_keeps_of {α β : Type*} {view : World → α} {part : Drive → β} {c : Code Drive}
    (hc : c.Keeps part)
    (h : ∀ d w, part d = part w.drive → view (World.setDrive d w) = view w) :
    (onDrive c).Keeps view :=
  Code.Keeps.lift_of h hc

/-- Drive code leaves every view of the rest of the state alone. -/
theorem onDrive_keeps {α : Type*} {view : World → α}
    (h : ∀ d w, view (World.setDrive d w) = view w) (c : Code Drive) : (onDrive c).Keeps view :=
  Code.Keeps.lift h c

/-- Lamp code in the firmware. -/
def onLamps (c : Code Lamps) : Code World :=
  c.lift World.lamps World.setLamps

/-- Lamp code leaves every view of the rest of the state alone. -/
theorem onLamps_keeps {α : Type*} {view : World → α}
    (h : ∀ lamps w, view (World.setLamps lamps w) = view w) (c : Code Lamps) :
    (onLamps c).Keeps view :=
  Code.Keeps.lift h c

/-! ## The system tick -/

/-- The debouncer's millisecond; a change of the debounced level is recorded. -/
def switchTick (w : World) : World :=
  let sw := appSwitchTick1ms w.switchPin w.switch
  let w' := { w with switch := sw }
  if appSwitchGetState sw = appSwitchGetState w.switch then w'
  else w'.observe (.switchChanged (appSwitchGetState sw))

/-- `SysTick_Handler`, with the level the switch pin has from now on. -/
def sysTickHandler (fl : ℚ → ℚ) (pin : Bool) (w : World) : World :=
  let w := { w with switchPin := pin }
  let w := w.setDrive (appMotorKinematicTick1ms fl w.drive)
  let w := switchTick w
  { w with lamps := appLampTick1ms w.lamps }

/-- A millisecond of the debouncer keeps its level, or flips it and records that. -/
theorem switchTick_cases (w : World) :
    (appSwitchGetState (switchTick w).switch = appSwitchGetState w.switch ∧
      (switchTick w).history = w.history) ∨
    (appSwitchGetState (switchTick w).switch = !appSwitchGetState w.switch ∧
      (switchTick w).history = .switchChanged (!appSwitchGetState w.switch) :: w.history) := by
  unfold switchTick
  by_cases h : appSwitchGetState (appSwitchTick1ms w.switchPin w.switch) =
      appSwitchGetState w.switch
  · simp only [if_pos h]
    exact .inl ⟨h, trivial⟩
  · simp only [if_neg h]
    have hnot : appSwitchGetState (appSwitchTick1ms w.switchPin w.switch) =
        !appSwitchGetState w.switch :=
      Bool.eq_not_of_ne h
    exact .inr ⟨hnot, by rw [World.observe, hnot]⟩

@[simp] theorem switchTick_ctl (w : World) : (switchTick w).ctl = w.ctl := by
  unfold switchTick
  simp only
  split <;> rfl

@[simp] theorem switchTick_drive (w : World) : (switchTick w).drive = w.drive := by
  unfold switchTick
  simp only
  split <;> rfl

@[simp] theorem switchTick_lamps (w : World) : (switchTick w).lamps = w.lamps := by
  unfold switchTick
  simp only
  split <;> rfl

/-- A tick leaves the control state alone. -/
@[simp] theorem sysTickHandler_ctl (fl : ℚ → ℚ) (pin : Bool) (w : World) :
    (sysTickHandler fl pin w).ctl = w.ctl := by
  simp [sysTickHandler, World.setDrive]

/-- The drive sees a tick as its own. -/
@[simp] theorem sysTickHandler_drive (fl : ℚ → ℚ) (pin : Bool) (w : World) :
    (sysTickHandler fl pin w).drive = appMotorKinematicTick1ms fl w.drive := by
  simp [sysTickHandler, World.setDrive]

/-- The lamps see a tick as their own. -/
@[simp] theorem sysTickHandler_lamps (fl : ℚ → ℚ) (pin : Bool) (w : World) :
    (sysTickHandler fl pin w).lamps = appLampTick1ms w.lamps := by
  simp [sysTickHandler, World.setDrive]

/-- What a tick does to the debounced level and to the history. -/
theorem sysTickHandler_history (fl : ℚ → ℚ) (pin : Bool) (w : World) :
    let w' := sysTickHandler fl pin w
    (appSwitchGetState w'.switch = appSwitchGetState w.switch ∧ w'.history = w.history) ∨
    (appSwitchGetState w'.switch = !appSwitchGetState w.switch ∧
      w'.history = .switchChanged (!appSwitchGetState w.switch) :: w.history) :=
  switchTick_cases (World.setDrive (appMotorKinematicTick1ms fl w.drive)
    { w with switchPin := pin })

/-- What one more observation cannot undo, a tick cannot. -/
theorem sysTickHandler_history_mono {fl : ℚ → ℚ} {pin : Bool} {w : World}
    {P : List Observation → Prop} (hcons : ∀ o history, P history → P (o :: history))
    (h : P w.history) : P (sysTickHandler fl pin w).history := by
  rcases sysTickHandler_history fl pin w with ⟨_, hhistory⟩ | ⟨_, hhistory⟩
  · rwa [hhistory]
  · rw [hhistory]
    exact hcons _ _ h

/-! ## Boot -/

section

variable (fl : ℚ → ℚ) (crc : List (BitVec 32) → BitVec 32)

/-- The settings in use. -/
def Control.settings (ctl : Control) : SystemSettings :=
  ctl.storage.active

/-- `App_Settings_Init` in `main`.  A power loss while the factory settings are
written ends the run. -/
def settingsInit (ops : Outcomes 12) : Code World :=
  let load : World → World := World.onCtl fun ctl =>
    { ctl with storage := appSettingsInit crc ops ctl.storage }
  .branch
    (fun w => ¬ RecordValid crc w.ctl.storage.flash ∧
      (appSettingsSave crc ops defaultSettings w.ctl.storage).2 = .cut)
    (.act load .halt) (.stmt load)

/-- Loading the settings leaves alone what does not depend on the storage. -/
theorem settingsInit_keeps {α : Type*} {view : World → α}
    (hstorage : ∀ (s : Control → Storage) w,
      view (World.onCtl (fun ctl => { ctl with storage := s ctl }) w) = view w)
    (ops : Outcomes 12) : (settingsInit crc ops).Keeps view :=
  .branch (fun _ => ⟨fun w hw => (hstorage _ w).trans hw, trivial⟩) (.stmt (hstorage _))

/-- `App_Encoder_SetDirection`, down to the polarity bit. -/
def appEncoderSetDirection (reversed : Bool) (ctl : Control) : Control :=
  { ctl with cc1p := reversed }

/-- The assignments that copy the loaded settings into the Modbus structure. -/
def syncModbus (ctl : Control) : Control :=
  let s := ctl.settings
  { ctl with
    mb := { ctl.mb with
      targetRPM := Binary32.decode s.targetRPM
      accelTimeSec := Binary32.decode s.accelTimeSec
      motorDirection := s.motorDirection.setWidth 8
      encoderReversed := s.encoderReversed != 0
      uartBaudRate := s.uartBaudRate
      autoStartStream := 0 < s.autoStartStream
      pendingStreamStart := 0 < s.autoStartStream
      microsteps := s.microsteps.setWidth 16
      ipAddress := s.ipAddress
      netmask := s.netmask
      gateway := s.gateway } }

/-- The boot part of `main`, up to the endless loop.  Steps without effect on
the state, the delays among them, are points where ticks land. -/
def boot (ops : Outcomes 12) : Code World :=
  .block [
    settingsInit crc ops,
    .stmt (fun w => w.setDrive (halMotorInit w.drive)),
    .stmt (World.onCtl fun ctl => appEncoderSetDirection (ctl.settings.encoderReversed != 0) ctl),
    .stmt (fun w =>
      ({ w with switch := appSwitchInit w.switchPin w.switch }).observe
        (.switchInit (halSwitchGetRawState w.switchPin))),
    .stmt (fun w => { w with lamps := appLampInit w.lamps }),
    .stmt (World.onCtl fun ctl => { ctl with uartBaudRate := ctl.settings.uartBaudRate }),
    .stmt id,
    .stmt (World.onCtl syncModbus)]

/-! ## One pass of the main loop -/

/-- What the environment supplies to a pass: the segments that the network
processing delivers, what the registers read as while each is handled, and the
outcome of the Flash operations of a save. -/
structure PassInput where
  deliveries : List (Pbuf × (ℕ → ReadInputs))
  save : Outcomes 12

/-- The receive handler on one segment.  What is sent back does not feed into the
run. -/
def receive (p : Pbuf) (inputs : ℕ → ReadInputs) (w : World) : World :=
  (w.onMb fun mb => (modbusRecvCb fl inputs mb (some p) 0).cfg).observe (.received p)

/-- `MX_LWIP_Process`: every waiting segment goes through the receive handler. -/
def mxLwipProcess (deliveries : List (Pbuf × (ℕ → ReadInputs))) : Code World :=
  .block <| deliveries.map fun (p, inputs) => .stmt (receive fl p inputs)

/-- What every segment keeps, the network processing keeps. -/
theorem mxLwipProcess_preserves {P : World → Prop}
    (h : ∀ p inputs w, P w → P (receive fl p inputs w))
    (deliveries : List (Pbuf × (ℕ → ReadInputs))) : (mxLwipProcess fl deliveries).Preserves P := by
  refine .block fun c hc => ?_
  obtain ⟨d, _, rfl⟩ := List.mem_map.mp hc
  exact .stmt (h d.1 d.2)

/-- The reads of the inputs at the top of a pass. -/
def sampleInputs : Code World :=
  .block [
    .stmt (fun w =>
      w.onCtl ({ · with currentSwitchState := appSwitchGetState w.switch })),
    .stmt (fun w => w.onCtl ({ · with motorState := w.drive.currentState }))]

/-- The settings structure filled in from the Modbus parameters. -/
def fillNewCfg (ctl : Control) : Control :=
  { ctl with
    newCfg := { ctl.newCfg with
      magicWord := settingsMagicWord
      targetRPM := Binary32.encode ctl.mb.targetRPM
      accelTimeSec := Binary32.encode ctl.mb.accelTimeSec
      motorDirection := ctl.mb.motorDirection.setWidth 32
      encoderReversed := if ctl.mb.encoderReversed then 1 else 0
      uartBaudRate := ctl.mb.uartBaudRate
      autoStartStream := if ctl.mb.autoStartStream then 1 else 0
      microsteps := ctl.mb.microsteps.setWidth 32
      ipAddress := ctl.mb.ipAddress
      netmask := ctl.mb.netmask
      gateway := ctl.mb.gateway } }

/-- The Flash save command.  A power loss during the save ends the run. -/
def saveCommand (ops : Outcomes 12) : Code World :=
  let save : World → World := World.onCtl fun ctl =>
    { ctl with storage := (appSettingsSave crc ops ctl.newCfg ctl.storage).1 }
  .whenever (·.ctl.mb.pendingSaveCmd) <| .block [
    .stmt (World.onMb ({ · with pendingSaveCmd := false })),
    .stmt (World.onCtl fillNewCfg),
    -- ticks during the save share no state with it
    .branch
      (fun w => (appSettingsSave crc ops w.ctl.newCfg w.ctl.storage).2 = .cut)
      (.act save .halt) (.stmt save)]

/-- A save leaves alone what depends neither on its flag nor on the record and the
storage. -/
theorem saveCommand_keeps {α : Type*} {view : World → α}
    (hflag : ∀ w, view (World.onMb ({ · with pendingSaveCmd := false }) w) = view w)
    (hrecord : ∀ w, view (World.onCtl fillNewCfg w) = view w)
    (hstorage : ∀ (s : Control → Storage) w,
      view (World.onCtl (fun ctl => { ctl with storage := s ctl }) w) = view w)
    (ops : Outcomes 12) : (saveCommand crc ops).Keeps view := by
  refine .whenever <| .block_cons (.stmt hflag) <| .block_cons (.stmt hrecord) <|
    .block_cons (.branch ?_ (.stmt (hstorage _))) .block_nil
  exact fun _ => ⟨fun w hw => (hstorage _ w).trans hw, trivial⟩

/-- The physical switch overrides the request when its level changes. -/
def switchEdge : Code World :=
  .whenever (fun w => w.ctl.currentSwitchState != w.ctl.lastSwitchState) <| .block [
    .stmt (World.onCtl fun ctl => { ctl with lastSwitchState := ctl.currentSwitchState }),
    .stmt (World.onCtl fun ctl => { ctl with sysMotorRunRequest := ctl.currentSwitchState })]

/-- The start command. -/
def motorStartCommand : Code World :=
  .whenever (·.ctl.mb.pendingMotorStart) <| .block [
    .stmt (World.onMb ({ · with pendingMotorStart := false })),
    .stmt (World.onCtl ({ · with sysMotorRunRequest := true }))]

/-- The stop command. -/
def motorStopCommand : Code World :=
  .whenever (·.ctl.mb.pendingMotorStop) <| .block [
    .stmt (World.onMb ({ · with pendingMotorStop := false })),
    .stmt (World.onCtl ({ · with sysMotorRunRequest := false }))]

/-- `App_Telemetry_StartStream` unmasks the encoder step interrupts,
`App_Telemetry_StopStream` masks them. -/
def setStepInterrupts (on : Bool) (ctl : Control) : Control :=
  { ctl with stepInterrupts := on }

/-- The command that starts the stream. -/
def streamStartCommand : Code World :=
  .whenever (·.ctl.mb.pendingStreamStart) <| .block [
    .stmt (World.onMb ({ · with pendingStreamStart := false })),
    .whenever (fun w => !w.ctl.mb.streamActive) <| .block [
      .stmt (World.onCtl (setStepInterrupts true)),
      .stmt (World.onMb ({ · with streamActive := true }))]]

/-- The command that stops the stream. -/
def streamStopCommand : Code World :=
  .whenever (·.ctl.mb.pendingStreamStop) <| .block [
    .stmt (World.onMb ({ · with pendingStreamStop := false })),
    .whenever (·.ctl.mb.streamActive) <| .block [
      .stmt (World.onCtl (setStepInterrupts false)),
      .stmt (World.onMb ({ · with streamActive := false }))]]

/-- The baud rate command, with the stream off while the rate changes. -/
def baudChangeCommand : Code World :=
  .whenever (·.ctl.mb.pendingBaudChange) <| .block [
    .stmt (World.onMb ({ · with pendingBaudChange := false })),
    .stmt (World.onCtl fun ctl => { ctl with bStreamingState := ctl.mb.streamActive }),
    .whenever (·.ctl.bStreamingState) (.stmt (World.onCtl (setStepInterrupts false))),
    .stmt (World.onCtl fun ctl => { ctl with uartBaudRate := ctl.mb.uartBaudRate }),
    .whenever (·.ctl.bStreamingState) (.stmt (World.onCtl (setStepInterrupts true)))]

/-- The encoder direction command. -/
def encoderDirCommand : Code World :=
  .whenever (·.ctl.mb.pendingEncoderDir) <| .block [
    .stmt (World.onMb ({ · with pendingEncoderDir := false })),
    .stmt (World.onCtl fun ctl => appEncoderSetDirection ctl.mb.encoderReversed ctl)]

/-- The reboot command: wait for the network, then reset the processor. -/
def rebootCommand : Code World :=
  .whenever (·.ctl.mb.pendingRebootCmd) <| .block [
    .stmt (World.onMb ({ · with pendingRebootCmd := false })),
    .stmt id,
    .stmt (fun w => w.setDrive (w.drive.log .main .systemReset)),
    .halt]

/-- The calls that start the motor with the current Modbus parameters. -/
def startMotor : Code World :=
  .block [
    .eval fun w =>
      onDrive (appMotorCalculateProfile fl w.ctl.mb.targetRPM w.ctl.mb.accelTimeSec
        w.ctl.mb.microsteps),
    .eval fun w => onDrive (appMotorStart w.ctl.mb.motorDirection)]

/-- A lamp request of the main loop. -/
def setLamp (mode : LampMode) : Code World :=
  onLamps (appLampSetModeCode 0 mode)

/-- Stop the motor if no run is requested. -/
def stopUnlessRequested : Code World :=
  .whenever (fun w => !w.ctl.sysMotorRunRequest) (onDrive appMotorStop)

/-- The motor state machine, on the state sampled at the top of the pass. -/
def motorStateMachine : Code World :=
  .eval fun w =>
    match w.ctl.motorState with
    | .stopped =>
        .block [setLamp .off, .whenever (·.ctl.sysMotorRunRequest) (startMotor fl)]
    | .accelerating => .block [setLamp .blinkFast, stopUnlessRequested]
    | .cruising => .block [setLamp .on, stopUnlessRequested]
    | .decelerating => setLamp .blinkFast

/-- The motor state machine keeps what lamp requests, a start and a stop keep. -/
theorem motorStateMachine_preserves {P : World → Prop}
    (hlamps : ∀ lamps w, P w → P (World.setLamps lamps w))
    (hstart : (startMotor fl).Preserves P) (hstop : (onDrive appMotorStop).Preserves P) :
    (motorStateMachine fl).Preserves P := by
  have hlamp : ∀ mode, (setLamp mode).Preserves P := fun _ => .lift_of hlamps _
  have hstopping : stopUnlessRequested.Preserves P := .whenever hstop
  intro w
  cases hstate : w.ctl.motorState with
  | stopped => simpa only [hstate] using Code.Preserves.pair (hlamp .off) (.whenever hstart)
  | accelerating => simpa only [hstate] using Code.Preserves.pair (hlamp .blinkFast) hstopping
  | cruising => simpa only [hstate] using Code.Preserves.pair (hlamp .on) hstopping
  | decelerating => simpa only [hstate] using hlamp .blinkFast

/-- The motor state machine leaves alone what depends neither on the drive nor on
the lamps. -/
theorem motorStateMachine_keeps {α : Type*} {view : World → α}
    (hdrive : ∀ d w, view (World.setDrive d w) = view w)
    (hlamps : ∀ lamps w, view (World.setLamps lamps w) = view w) :
    (motorStateMachine fl).Keeps view := by
  have hcode : ∀ c, (onDrive c).Keeps view := onDrive_keeps hdrive
  have hstart : (startMotor fl).Keeps view :=
    .pair (fun a w => hcode _ a) fun a w => hcode _ a
  exact fun a => motorStateMachine_preserves fl (fun lamps w hw => (hlamps lamps w).trans hw)
    (hstart a) (hcode _ a)

/-- The pass from the switch edge to the reboot command. -/
def commands : Code World :=
  .block [switchEdge, motorStartCommand, motorStopCommand, streamStartCommand,
    streamStopCommand, baudChangeCommand, encoderDirCommand, rebootCommand]

/-- One pass of the endless loop of `main`. -/
def pass (input : PassInput) : Code World :=
  .block [
    mxLwipProcess fl input.deliveries,
    sampleInputs,
    saveCommand crc input.save,
    commands,
    motorStateMachine fl]

/-! ## Runs -/

/-- The main loop preempted by the tick. -/
def firmware : System World Bool PassInput where
  irq := sysTickHandler fl
  body := pass fl crc

/-- The state before any code has run, with a Flash content and a level of the
switch pin. -/
def World.powerUp (flash : Sector) (pin : Bool) : World where
  ctl := {
    mb := initialConfig
    storage := ⟨flash, .ofWords fun _ => 0⟩
    newCfg := .ofWords fun _ => 0
    lastSwitchState := false
    sysMotorRunRequest := false
    currentSwitchState := false
    bStreamingState := false
    motorState := .stopped
    cc1p := false
    stepInterrupts := false
    uartBaudRate := 0 }
  drive := .powerUp
  switch := initialSwitch
  lamps := initialLamps
  switchPin := pin
  history := []

/-- What a run starts from. -/
structure PowerUp where
  flash : Sector
  pin : Bool
  /-- The outcome of writing the factory settings, should the boot do it. -/
  repair : Outcomes 12

/-- Power-up: the boot code is to run. -/
def PowerUp.config (start : PowerUp) : Config World :=
  ⟨boot crc start.repair, .powerUp start.flash start.pin⟩

/-- The configuration that a schedule leads to from power-up. -/
def runFrom (start : PowerUp) (schedule : List (Event Bool PassInput)) : Config World :=
  (firmware fl crc).run schedule (start.config crc)

end

/-! ## Concrete schedules -/

/-- Flash operations that all complete. -/
def flashCompletes : Outcomes 12 where
  erase := .completed
  program := fun _ => .completed

/-- A pass in which a master writes registers, each in a segment of its own. -/
def writes (cmds : List (Register × BitVec 16)) : PassInput where
  deliveries := cmds.map fun c => (writeSegment c.1 c.2, fun _ => restInputs)
  save := flashCompletes

/-- Power-up without a settings record, with the switch on or off. -/
def emptyFlash (switchOn : Bool) : PowerUp where
  flash := fun _ => erasedWord
  pin := !switchOn
  repair := flashCompletes

/-- Boot, and passes that run to their end. -/
def bootAndPasses (inputs : List PassInput) : List (Event Bool PassInput) :=
  List.replicate 20 .main ++ inputs.flatMap fun input => .enter input :: List.replicate 50 .main

/-- Boot, a start with the shortest ramp, a millisecond that reaches the target,
and what follows. -/
def cruiseAndThen (events : List (Event Bool PassInput)) : List (Event Bool PassInput) :=
  bootAndPasses [writes [(.motorAccel, 0), (.motorCtrl, 1)]] ++ .irq true :: events

end Firmware
end MDCMotorControl
