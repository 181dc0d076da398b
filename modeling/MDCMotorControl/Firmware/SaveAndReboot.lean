import MDCMotorControl.Firmware.Arbitration
import MDCMotorControl.Firmware.Peripherals
import MDCMotorControl.Library.Executions

/-!
# Saving the parameters and restarting from them

A pass with a save request copies the Modbus parameters, field by field, into a
settings record and writes it to Flash; the boot copies the record back.  The two
copies convert between the representations of the parameters, and the floats pass
through their bit patterns.

The request is a flag, and the pass acts on it after it has received its whole
batch.

Main results:

- Theorem `pass_saves`: what a pass with a pending save leaves in the record, in the
  storage and in the parameters.
- Theorem `saved_record`: the record has the parameters after all writes of the
  batch.
- Theorem `reboot_restores`: after a completed save, a restart brings the parameters
  back.
- Theorem `later_write_saved`: a write that follows the save request is saved too.
-/

namespace MDCMotorControl
namespace Firmware

open Interruptible Motor Settings Modbus Panel FlashSector

/-! ## Parameters -/

/-- The parameters that a settings record keeps. -/
structure Parameters where
  targetRPM : ℚ
  accelTimeSec : ℚ
  motorDirection : BitVec 8
  encoderReversed : Bool
  uartBaudRate : BitVec 32
  autoStartStream : Bool
  microsteps : BitVec 16
  ipAddress : Octets
  netmask : Octets
  gateway : Octets
deriving DecidableEq

/-- The parameters in the Modbus structure. -/
def parametersOf (mb : ModbusConfig) : Parameters where
  targetRPM := mb.targetRPM
  accelTimeSec := mb.accelTimeSec
  motorDirection := mb.motorDirection
  encoderReversed := mb.encoderReversed
  uartBaudRate := mb.uartBaudRate
  autoStartStream := mb.autoStartStream
  microsteps := mb.microsteps
  ipAddress := mb.ipAddress
  netmask := mb.netmask
  gateway := mb.gateway

/-- The parameters in a settings record, as the boot reads them. -/
def loadedParameters (s : SystemSettings) : Parameters where
  targetRPM := Binary32.decode s.targetRPM
  accelTimeSec := Binary32.decode s.accelTimeSec
  motorDirection := s.motorDirection.setWidth 8
  encoderReversed := s.encoderReversed != 0
  uartBaudRate := s.uartBaudRate
  autoStartStream := 0 < s.autoStartStream
  microsteps := s.microsteps.setWidth 16
  ipAddress := s.ipAddress
  netmask := s.netmask
  gateway := s.gateway

/-- The two floats have bit patterns. -/
def Exact (p : Parameters) : Prop :=
  Binary32.Representable p.targetRPM ∧ Binary32.Representable p.accelTimeSec

theorem syncModbus_parameters (ctl : Control) :
    parametersOf (syncModbus ctl).mb = loadedParameters ctl.settings := rfl

theorem sealed_parameters {crc : List (BitVec 32) → BitVec 32} (s : SystemSettings) :
    loadedParameters (sealed crc s) = loadedParameters s := rfl

theorem exact_loadedParameters (s : SystemSettings) : Exact (loadedParameters s) :=
  ⟨Binary32.representable_decode _, Binary32.representable_decode _⟩

/-- The two copies of `main` undo each other. -/
theorem fillNewCfg_parameters {ctl : Control} (h : Exact (parametersOf ctl.mb)) :
    loadedParameters (fillNewCfg ctl).newCfg = parametersOf ctl.mb := by
  have hrpm : Binary32.decode (Binary32.encode ctl.mb.targetRPM) = ctl.mb.targetRPM :=
    h.1.decode_encode
  have haccel : Binary32.decode (Binary32.encode ctl.mb.accelTimeSec) = ctl.mb.accelTimeSec :=
    h.2.decode_encode
  have hdirection : (ctl.mb.motorDirection.setWidth 32).setWidth 8 = ctl.mb.motorDirection := by
    rw [BitVec.setWidth_setWidth_of_le _ (by decide), BitVec.setWidth_eq]
  have hmicrosteps : (ctl.mb.microsteps.setWidth 32).setWidth 16 = ctl.mb.microsteps := by
    rw [BitVec.setWidth_setWidth_of_le _ (by decide), BitVec.setWidth_eq]
  simp only [loadedParameters, fillNewCfg, parametersOf, hrpm, haccel, hdirection, hmicrosteps,
    Parameters.mk.injEq, and_true, true_and]
  constructor
  · cases ctl.mb.encoderReversed <;> rfl
  · by_cases hauto : ctl.mb.autoStartStream = true <;> simp [hauto]

section

variable {fl : ℚ → ℚ} {crc : List (BitVec 32) → BitVec 32} {ops : Outcomes 12}

/-! ## The stages of a pass -/

/-- The Modbus structure after a batch of writes. -/
def written (fl : ℚ → ℚ) (cmds : List (Register × BitVec 16)) (mb : ModbusConfig) :
    ModbusConfig :=
  cmds.foldl (fun mb c => writeRegister fl mb c.1 c.2) mb

/-- Only a save request sets its flag, and no write clears it. -/
theorem writeRegister_pendingSaveCmd (mb : ModbusConfig) (c : Register × BitVec 16) :
    (writeRegister fl mb c.1 c.2).pendingSaveCmd =
      (mb.pendingSaveCmd || decide (c = (.saveSettings, 1))) := by
  obtain ⟨r, v⟩ := c
  cases r <;> simp [writeRegister]
  case motorCtrl => by_cases hv : v = 1#16 <;> simp [hv]
  case streamCtrl => by_cases hv : v = 1#16 <;> simp [hv]
  case saveSettings => by_cases hv : v = 1#16 <;> simp [hv]
  case systemReboot => by_cases hv : v = 1#16 <;> simp [hv]

/-- A save is pending after a batch if one was before or the batch requests one. -/
theorem written_pendingSaveCmd (cmds : List (Register × BitVec 16)) (mb : ModbusConfig) :
    (written fl cmds mb).pendingSaveCmd =
      (mb.pendingSaveCmd || cmds.any (· = (.saveSettings, 1))) := by
  induction cmds generalizing mb with
  | nil => simp [written]
  | cons c cmds ih =>
      rw [List.any_cons, ← Bool.or_assoc, ← writeRegister_pendingSaveCmd]
      exact ih _

/-- What a pass after its save leaves alone. -/
def World.settled (w : World) : Parameters × SystemSettings × Storage :=
  (parametersOf w.ctl.mb, w.ctl.newCfg, w.ctl.storage)

theorem receive_determined (deliveries : List (Pbuf × (ℕ → ReadInputs))) :
    (mxLwipProcess fl deliveries).Determined World.ctl := by
  induction deliveries with
  | nil => exact .block_nil
  | cons d ds ih =>
      refine .block_cons (.stmt_of
        (fun ctl => { ctl with mb := (modbusRecvCb fl d.2 ctl.mb (some d.1) 0).cfg })
        fun _ => rfl) ih

theorem receive_returns (deliveries : List (Pbuf × (ℕ → ReadInputs))) :
    (mxLwipProcess fl deliveries).Returns := by
  induction deliveries with
  | nil => trivial
  | cons d ds ih => exact ih

/-- The network processing applies the writes of its batch. -/
theorem receive_exec (deliveries : List (Pbuf × (ℕ → ReadInputs))) (w : World) :
    ((mxLwipProcess fl deliveries).exec w).ctl =
      { w.ctl with mb := written fl (deliveries.filterMap fun d => d.1.command) w.ctl.mb } := by
  induction deliveries generalizing w with
  | nil => rfl
  | cons d ds ih =>
      have hhead : (receive fl d.1 d.2 w).ctl =
          { w.ctl with mb := applyCommand fl w.ctl.mb d.1.command } := by
        rw [← @recv_cfg fl d.2]
        rfl
      refine (ih (receive fl d.1 d.2 w)).trans ?_
      rw [hhead]
      cases hcmd : d.1.command with
      | none => simp [hcmd, applyCommand]
      | some c => simp [hcmd, applyCommand, written]

theorem sampleInputs_settled : sampleInputs.Keeps fun w => (w.ctl.mb, w.settled) :=
  .pair (.stmt fun _ => rfl) (.stmt fun _ => rfl)

theorem saveCommand_determined : (saveCommand crc ops).Determined World.ctl :=
  command_determined .saveCmd

/-- A pending save, undisturbed. -/
theorem saveCommand_exec {w : World} (h : w.ctl.mb.pendingSaveCmd = true) :
    let new := (fillNewCfg w.ctl).newCfg
    ((saveCommand crc ops).exec w).settled =
      (parametersOf w.ctl.mb, new, (appSettingsSave crc ops new w.ctl.storage).1) := by
  rw [saveCommand, Code.exec_whenever, if_pos h]
  simp only [Code.block_cons, Code.block_nil, Code.seq_stmt, Code.seq_done_right, Code.exec_act,
    Code.exec_branch, Code.exec_halt, Code.exec_stmt]
  split <;> rfl

/-- Only a power loss ends a save with a reset. -/
theorem saveCommand_exit (w : World) :
    (saveCommand crc ops).exit w =
      if w.ctl.mb.pendingSaveCmd = true ∧
        (appSettingsSave crc ops (fillNewCfg w.ctl).newCfg w.ctl.storage).2 = .cut
      then .reset else .returned := by
  cases hpending : w.ctl.mb.pendingSaveCmd with
  | false => simp [saveCommand, Code.whenever, Code.branch, Code.exit, hpending]
  | true =>
      simp only [saveCommand, Code.whenever, Code.branch, Code.exit, hpending, Code.block_cons,
        Code.block_nil, Code.seq_stmt, Code.seq_done_right, cond_true, true_and]
      show Code.exit (bif decide ((appSettingsSave crc ops (fillNewCfg w.ctl).newCfg
        w.ctl.storage).2 = .cut) then _ else _) _ = _
      split
      case isTrue hcut => simp [hcut, Code.exit]
      case isFalse hcut => simp [hcut, Code.exit, Code.stmt]

theorem commands_settled : commands.Keeps World.settled := by
  have hstreamStart : streamStartCommand.Keeps World.settled :=
    .whenever <| .pair (.stmt fun _ => rfl) (.whenever_pair (fun _ => rfl) fun _ => rfl)
  have hstreamStop : streamStopCommand.Keeps World.settled :=
    .whenever <| .pair (.stmt fun _ => rfl) (.whenever_pair (fun _ => rfl) fun _ => rfl)
  have hbaud : baudChangeCommand.Keeps World.settled :=
    .whenever <| .block_cons (.stmt fun _ => rfl) <| .block_cons (.stmt fun _ => rfl) <|
      .block_cons (.whenever (.stmt fun _ => rfl)) <| .block_cons (.stmt fun _ => rfl) <|
      .block_cons (.whenever (.stmt fun _ => rfl)) .block_nil
  have hreboot : rebootCommand.Keeps World.settled :=
    .whenever <| .block_cons (.stmt fun _ => rfl) <| .block_cons (.stmt fun _ => rfl) <|
      .block_cons (.stmt fun _ => rfl) <| .block_cons (fun _ => trivial) .block_nil
  exact .block_cons (.whenever_pair (fun _ => rfl) fun _ => rfl) <|
    .block_cons (.whenever_pair (fun _ => rfl) fun _ => rfl) <|
    .block_cons (.whenever_pair (fun _ => rfl) fun _ => rfl) <|
    .block_cons hstreamStart <| .block_cons hstreamStop <| .block_cons hbaud <|
    .pair (.whenever_pair (fun _ => rfl) fun _ => rfl) hreboot

theorem sysTickHandler_settled (pin : Bool) (w : World) :
    (sysTickHandler fl pin w).settled = w.settled := by
  rw [World.settled, sysTickHandler_ctl, World.settled]

/-- Before its save a pass applies the writes of its batch and leaves the record, the
storage and the agreement alone. -/
theorem pass_until_save {input : PassInput} {w w' : World} {ts : List (Turn Bool)} {r : Exit}
    (h : Completes (sysTickHandler fl) (pass fl crc input) w ts r w') :
    ∃ v us, Completes (sysTickHandler fl)
        (.block [saveCommand crc input.save, commands, motorStateMachine fl]) v us r w' ∧
      v.ctl.mb = written fl input.commands w.ctl.mb ∧ v.ctl.newCfg = w.ctl.newCfg ∧
      v.ctl.storage = w.ctl.storage ∧ (Agrees w.ctl → Agrees v.ctl) := by
  obtain ⟨_, _, w₁, _, hreceive, h⟩ := h.seq_inv_returns (receive_returns _)
  obtain ⟨_, us, v, _, hsample, h⟩ := h.seq_inv_returns trivial
  have hagrees : Agrees w.ctl → Agrees v.ctl := by
    intro hw
    have hw₁ := hreceive.preserves (cleared_stable []) (receive_cleared _)
      ⟨hw, fun f hf => by cases hf⟩
    exact (hsample.preserves (cleared_stable []) (sampleInputs_cleared []) hw₁).1
  have hctl : w₁.ctl = { w.ctl with mb := written fl input.commands w.ctl.mb } :=
    (hreceive.determined (sysTickHandler_ctl fl) (receive_determined _) rfl).trans
      (receive_exec _ w)
  have hview : (v.ctl.mb, v.settled) = (w₁.ctl.mb, w₁.settled) :=
    hsample.unchanged (fun pin v => by rw [sysTickHandler_settled, sysTickHandler_ctl])
      sampleInputs_settled
  obtain ⟨hmb, hsettled⟩ := Prod.mk.inj hview
  rw [hctl] at hmb
  have hcfg : v.ctl.newCfg = w.ctl.newCfg := by
    have heq := congrArg (·.2.1) hsettled
    simpa only [World.settled, hctl] using heq
  have hstorage : v.ctl.storage = w.ctl.storage := by
    have heq := congrArg (·.2.2) hsettled
    simpa only [World.settled, hctl] using heq
  exact ⟨v, us, h, hmb, hcfg, hstorage, hagrees⟩

/-- A pass with a pending save: the record and the storage are those of a save of
the parameters after the whole batch, however the pass ends. -/
theorem pass_saves {input : PassInput} {w w' : World} {ts : List (Turn Bool)} {r : Exit}
    (h : Completes (sysTickHandler fl) (pass fl crc input) w ts r w') :
    let mb := written fl input.commands w.ctl.mb
    let new := (fillNewCfg { w.ctl with mb := mb }).newCfg
    mb.pendingSaveCmd = true →
      w'.settled =
        (parametersOf mb, new, (appSettingsSave crc input.save new w.ctl.storage).1) := by
  intro mb new hpending
  obtain ⟨v, us, h, hmb, hcfg, hstorage, _⟩ := pass_until_save h
  have hnew : (fillNewCfg v.ctl).newCfg = new := by
    simp only [new, fillNewCfg, hmb, hcfg, mb]
  -- the save, and what follows
  have hsave : ∀ {u : World} {us : List (Turn Bool)} {q : Exit},
      Completes (sysTickHandler fl) (saveCommand crc input.save) v us q u →
        u.settled =
          (parametersOf mb, new, (appSettingsSave crc input.save new w.ctl.storage).1) := by
    intro u us q hu
    have hctl := hu.determined (sysTickHandler_ctl fl) saveCommand_determined rfl
    have hpending' : v.ctl.mb.pendingSaveCmd = true := by rwa [hmb]
    have hexec := @saveCommand_exec crc input.save v hpending'
    rw [hnew, hmb, hstorage] at hexec
    rw [← hexec, World.settled, World.settled, hctl]
  have hrest : (Code.block [commands, motorStateMachine fl]).Keeps World.settled :=
    .pair commands_settled (motorStateMachine_keeps fl (fun _ _ => rfl) fun _ _ => rfl)
  rcases h.seq_inv with ⟨_, _, u, _, hu, h⟩ | ⟨_, hu⟩
  · exact (h.unchanged sysTickHandler_settled hrest).trans (hsave hu)
  · exact hsave hu

/-! ## Parameters are exact -/

/-- Ten times the numbers that registers hold are integers of 16 bits. -/
theorem representable_register (v : BitVec 16) :
    Binary32.Representable (Binary32.round (v.toNat / 10)) := by
  apply Binary32.representable_round
  have hv : (v.toNat : ℚ) < 2 ^ 16 := by exact_mod_cast v.isLt
  have hnonneg : (0 : ℚ) ≤ v.toNat / 10 := by positivity
  rw [abs_of_nonneg hnonneg]
  linarith

theorem exact_writeRegister {mb : ModbusConfig} (h : Exact (parametersOf mb)) (r : Register)
    (v : BitVec 16) : Exact (parametersOf (writeRegister Binary32.round mb r v)) := by
  cases r with
  | motorRpm => exact ⟨representable_register v, h.2⟩
  | motorAccel => exact ⟨h.1, representable_register v⟩
  | motorCtrl =>
      simp only [writeRegister]
      split <;> exact h
  | streamCtrl =>
      simp only [writeRegister]
      split <;> exact h
  | saveSettings =>
      simp only [writeRegister]
      split <;> exact h
  | systemReboot =>
      simp only [writeRegister]
      split <;> exact h
  | _ => exact h

theorem exact_initialConfig : Exact (parametersOf initialConfig) := by
  have hrpm : Binary32.decode 0x41200000 = initialConfig.targetRPM := by decide +kernel
  have haccel : Binary32.decode 0x40000000 = initialConfig.accelTimeSec := by decide +kernel
  exact ⟨Binary32.representable_of_decode hrpm, Binary32.representable_of_decode haccel⟩

theorem saveCommand_parameters :
    (saveCommand crc ops).Keeps fun w => parametersOf w.ctl.mb :=
  saveCommand_keeps crc (fun _ => rfl) (fun _ => rfl) (fun _ _ => rfl) ops

/-- After the network processing a pass leaves the parameters alone. -/
theorem afterReceive_parameters (input : PassInput) :
    (Code.block [sampleInputs, saveCommand crc input.save, commands,
      motorStateMachine fl]).Keeps fun w => parametersOf w.ctl.mb := by
  have hsample : sampleInputs.Keeps fun w => parametersOf w.ctl.mb :=
    fun p => sampleInputs_settled.preserves fun v => v.2.1 = p
  have hcommands : commands.Keeps fun w => parametersOf w.ctl.mb :=
    fun p => commands_settled.preserves fun v => v.1 = p
  exact .block_cons hsample <| .block_cons saveCommand_parameters <| .block_cons hcommands <|
    .block_cons (motorStateMachine_keeps fl (fun _ _ => rfl) fun _ _ => rfl) .block_nil

theorem pass_exact (input : PassInput) :
    (pass Binary32.round crc input).Preserves fun w => Exact (parametersOf w.ctl.mb) := by
  have hreceive : (mxLwipProcess Binary32.round input.deliveries).Preserves
      fun w => Exact (parametersOf w.ctl.mb) := by
    refine mxLwipProcess_preserves _ (fun p inputs w hw => ?_) input.deliveries
    show Exact (parametersOf (modbusRecvCb Binary32.round inputs w.ctl.mb (some p) 0).cfg)
    rw [recv_cfg]
    cases p.command with
    | none => exact hw
    | some c => exact exact_writeRegister hw c.1 c.2
  exact .block_cons hreceive ((afterReceive_parameters input).preserves Exact)

theorem boot_exact (repair : Outcomes 12) :
    (boot crc repair).Preserves fun w => Exact (parametersOf w.ctl.mb) := by
  have hinit : (settingsInit crc repair).Preserves fun w => Exact (parametersOf w.ctl.mb) :=
    .branch ⟨fun _ => id, trivial⟩ (.stmt fun _ => id)
  exact .block_cons hinit ⟨fun _ => id, fun _ => id, fun _ => id, fun _ => id, fun _ => id,
    fun _ => id, fun _ _ => exact_loadedParameters _, trivial⟩

/-- In every run the floats of the Modbus structure have bit patterns. -/
theorem runFrom_exact (start : PowerUp) (schedule : List (Event Bool PassInput)) :
    Exact (parametersOf (runFrom Binary32.round crc start schedule).state.ctl.mb) := by
  have hstable : Stable (sysTickHandler Binary32.round)
      fun w => Exact (parametersOf w.ctl.mb) := by
    intro pin w hw
    rwa [sysTickHandler_ctl]
  have hboot : wp (firmware Binary32.round crc).irq (fun w => Exact (parametersOf w.ctl.mb))
      (fun w => Exact (parametersOf w.ctl.mb)) (start.config crc).code (start.config crc).state :=
    Triple.of_preserves hstable (fun _ => id) (boot_exact start.repair) _ exact_initialConfig
  have hpass := fun input : PassInput =>
    Triple.of_preserves hstable (fun _ => id) (@pass_exact crc input)
  exact wp_invariant (I := fun w : World => Exact (parametersOf w.ctl.mb))
    (System.run_invariant hpass hboot schedule)

theorem exact_written (cmds : List (Register × BitVec 16)) {mb : ModbusConfig}
    (h : Exact (parametersOf mb)) : Exact (parametersOf (written Binary32.round cmds mb)) := by
  induction cmds generalizing mb with
  | nil => exact h
  | cons c cmds ih => exact ih (exact_writeRegister h c.1 c.2)

/-! ## The boot from a valid record -/

theorem boot_determined (repair : Outcomes 12) : (boot crc repair).Determined World.ctl := by
  have hinit : (settingsInit crc repair).Determined World.ctl := by
    refine .branch (fun w v h => ?_) ⟨(determined_onCtl _).1, trivial⟩ (determined_onCtl _)
    rw [h]
  exact hinit.seq bootAfterInit_determined

/-- Loading the settings takes two steps, and every further statement one. -/
theorem boot_within (repair : Outcomes 12) : (boot crc repair).Within 9 := by
  have hinit : (settingsInit crc repair).Within 2 :=
    .branch ⟨by decide, trivial⟩ ⟨by decide, trivial⟩
  exact hinit.seq (n := 7) (by simp [Code.Within, Code.stmt])

/-- From a valid record, undisturbed, the boot loads it and copies it into the UART
handle and the Modbus structure. -/
theorem boot_exec_loads (repair : Outcomes 12) {w : World}
    (h : RecordValid crc w.ctl.storage.flash) :
    let ctl := ((boot crc repair).exec w).ctl
    ctl.settings = .ofWords w.ctl.storage.flash ∧ ctl.uartBaudRate = ctl.settings.uartBaudRate ∧
      parametersOf ctl.mb = loadedParameters ctl.settings ∧
      ctl.mb.pendingStreamStart = ctl.mb.autoStartStream := by
  intro ctl
  have hactive := @appSettingsInit_active_of_valid crc repair w.ctl.storage h
  rw [← hactive]
  simp only [ctl, boot, settingsInit, Code.block_cons, Code.branch, Code.seq_eval, Code.exec_eval,
    h, not_true_eq_false, false_and, decide_false, cond_false]
  exact ⟨rfl, rfl, syncModbus_parameters _, rfl⟩

theorem boot_exec (repair : Outcomes 12) {w : World} (h : RecordValid crc w.ctl.storage.flash) :
    let mb := ((boot crc repair).exec w).ctl.mb
    parametersOf mb = loadedParameters (.ofWords w.ctl.storage.flash) ∧
      mb.pendingStreamStart = mb.autoStartStream := by
  intro mb
  obtain ⟨hsettings, _, hparameters, hstream⟩ := boot_exec_loads repair h
  rw [hsettings] at hparameters
  exact ⟨hparameters, hstream⟩

/-- A boot from a valid record returns. -/
theorem boot_returned {repair : Outcomes 12} {w w' : World} {ts : List (Turn Bool)} {r : Exit}
    (h : Completes (sysTickHandler fl) (boot crc repair) w ts r w')
    (hvalid : RecordValid crc w.ctl.storage.flash) : r = .returned := by
  rcases h.seq_inv with ⟨_, _, w₁, _, _, h⟩ | ⟨_, h⟩
  · exact h.returned trivial
  · have hstable : Stable (sysTickHandler fl) fun w => RecordValid crc w.ctl.storage.flash := by
      intro pin w hw
      rwa [sysTickHandler_ctl]
    obtain ⟨w₁, ts₁, hvalid₁, h⟩ := h.eval_inv hstable hvalid
    simp only [hvalid₁, not_true_eq_false, false_and, decide_false, cond_false] at h
    have hreturned := h.returned trivial
    cases hreturned

/-- However preempted, the boot from a valid record comes to its end, with the control
state of an undisturbed one. -/
theorem boot_ends {start : PowerUp} {restart : List (Event Bool PassInput)}
    (hvalid : RecordValid crc start.flash) (hrestart : ∀ e ∈ restart, e.isEnter = false)
    (hsteps : 9 ≤ programSteps restart) :
    let booted := runFrom fl crc start restart
    booted.code = .done ∧ booted.state.ctl =
      ((boot crc start.repair).exec (.powerUp start.flash start.pin)).ctl := by
  intro booted
  obtain ⟨r, hr⟩ := @System.run_within _ _ _ (firmware fl crc) (boot crc start.repair)
    (.powerUp start.flash start.pin) restart 9 hrestart (boot_within start.repair) hsteps
  have hrun : (firmware fl crc).run restart
      ⟨boot crc start.repair, .powerUp start.flash start.pin⟩ = ⟨r.code, booted.state⟩ := by
    rw [← hr]
    rfl
  obtain ⟨ts, hts⟩ := System.exists_completes hrestart hrun
  refine ⟨?_, hts.determined (sysTickHandler_ctl fl) (boot_determined start.repair) rfl⟩
  rw [boot_returned hts hvalid] at hr
  exact hr

/-- It ends with the parameters of the record. -/
theorem boot_restores {start : PowerUp} {restart : List (Event Bool PassInput)}
    (hvalid : RecordValid crc start.flash) (hrestart : ∀ e ∈ restart, e.isEnter = false)
    (hsteps : 9 ≤ programSteps restart) :
    let booted := runFrom fl crc start restart
    booted.code = .done ∧
      parametersOf booted.state.ctl.mb = loadedParameters (.ofWords start.flash) ∧
      booted.state.ctl.mb.pendingStreamStart = booted.state.ctl.mb.autoStartStream := by
  intro booted
  obtain ⟨hdone, hctl⟩ := @boot_ends fl crc start restart hvalid hrestart hsteps
  refine ⟨hdone, ?_⟩
  rw [hctl]
  exact boot_exec start.repair hvalid

/-! ## Main results -/

/-- A pass in a run, from its entry to its end, is a complete execution. -/
theorem exists_pass_completes {start : PowerUp} {before during : List (Event Bool PassInput)}
    {input : PassInput} (hready : (runFrom fl crc start before).code = .done)
    (hduring : ∀ e ∈ during, e.isEnter = false)
    (hended : (runFrom fl crc start (before ++ .enter input :: during)).code = .done ∨
      (runFrom fl crc start (before ++ .enter input :: during)).code = .halt) :
    ∃ ts r, Completes (sysTickHandler fl) (pass fl crc input)
      (runFrom fl crc start before).state ts r
      (runFrom fl crc start (before ++ .enter input :: during)).state := by
  have hrun : runFrom fl crc start (before ++ .enter input :: during) =
      (firmware fl crc).run during ⟨pass fl crc input, (runFrom fl crc start before).state⟩ :=
    System.run_enter _ hready
  obtain ⟨r, hr⟩ : ∃ r : Exit,
      (runFrom fl crc start (before ++ .enter input :: during)).code = r.code := by
    rcases hended with hdone | hhalt
    · exact ⟨.returned, hdone⟩
    · exact ⟨.reset, hhalt⟩
  have hend : (firmware fl crc).run during
      ⟨pass fl crc input, (runFrom fl crc start before).state⟩ =
        ⟨r.code, (runFrom fl crc start (before ++ .enter input :: during)).state⟩ := by
    rw [← hr, ← hrun]
  obtain ⟨ts, hts⟩ := System.exists_completes hduring hend
  exact ⟨ts, r, hts⟩

end

/-- The record that a pass saves holds the parameters after all writes of its batch,
those that follow the save request included; what the Flash and the RAM copy hold
afterwards is a save of this record. -/
theorem saved_record (fl : ℚ → ℚ) (crc : List (BitVec 32) → BitVec 32) (start : PowerUp)
    (before during : List (Event Bool PassInput)) (input : PassInput)
    (hready : (runFrom fl crc start before).code = .done)
    (hduring : ∀ e ∈ during, e.isEnter = false)
    (hended : (runFrom fl crc start (before ++ .enter input :: during)).code = .done ∨
      (runFrom fl crc start (before ++ .enter input :: during)).code = .halt)
    (hsave : (.saveSettings, 1) ∈ input.commands) :
    let old := (runFrom fl crc start before).state.ctl
    let new := (runFrom fl crc start (before ++ .enter input :: during)).state.ctl
    new.newCfg = (fillNewCfg { old with mb := written fl input.commands old.mb }).newCfg ∧
      new.storage = (appSettingsSave crc input.save new.newCfg old.storage).1 := by
  intro old new
  obtain ⟨ts, r, hpass⟩ := exists_pass_completes hready hduring hended
  have hpending : (written fl input.commands old.mb).pendingSaveCmd = true := by
    rw [written_pendingSaveCmd, List.any_eq_true.mpr ⟨_, hsave, decide_eq_true rfl⟩, Bool.or_true]
  obtain ⟨-, hrest⟩ := Prod.mk.inj (pass_saves hpass hpending)
  obtain ⟨hcfg, hstorage⟩ := Prod.mk.inj hrest
  refine ⟨hcfg, hstorage.trans ?_⟩
  rw [← hcfg]

/-- A save of another speed, requested before the speed is written. -/
def saveThenWrite : PassInput :=
  writes [(.saveSettings, 1), (.motorRpm, 500)]

/-- The speed of 50 RPM is in the record. -/
theorem saved_record_later :
    (runFrom Binary32.round (fun _ => 0) (emptyFlash false)
      (bootAndPasses [saveThenWrite])).state.ctl.newCfg.targetRPM = 0x42480000 := by
  obtain ⟨hcfg, -⟩ := saved_record Binary32.round (fun _ => 0) (emptyFlash false)
    (bootAndPasses []) (List.replicate 50 .main) saveThenWrite
    (Code.returned_iff.mp (by decide +kernel)) (by decide)
    (.inl (Code.returned_iff.mp (by decide +kernel))) (by decide +kernel)
  exact (congrArg SystemSettings.targetRPM hcfg).trans (by decide +kernel)

/-- A write that follows the only save request of its batch is saved too: before the
request the speed was 8 RPM. -/
theorem later_write_saved :
    let old := (runFrom Binary32.round (fun _ => 0) (emptyFlash false) (bootAndPasses [])).state.ctl
    let c := runFrom Binary32.round (fun _ => 0) (emptyFlash false) (bootAndPasses [saveThenWrite])
    saveThenWrite.commands = [(.saveSettings, 1), (.motorRpm, 500)] ∧ c.code.returned = true ∧
      (fillNewCfg { old with mb := written Binary32.round [] old.mb }).newCfg.targetRPM =
        Binary32.encode 8 ∧
      c.state.ctl.newCfg.targetRPM = Binary32.encode 50 ∧
      Binary32.encode 50 ≠ Binary32.encode 8 := by
  decide +kernel

/-- After a save that reports success, a restart from what is in Flash takes the
record for valid, comes to its end and leaves in the Modbus structure the parameters
from before the save, with a start of the stream pending if it starts by itself. -/
theorem reboot_restores (crc : List (BitVec 32) → BitVec 32) (start : PowerUp)
    (before during restart : List (Event Bool PassInput)) (input : PassInput) (pin : Bool)
    (repair : Outcomes 12) (hready : (runFrom Binary32.round crc start before).code = .done)
    (hduring : ∀ e ∈ during, e.isEnter = false)
    (hended : (runFrom Binary32.round crc start (before ++ .enter input :: during)).code = .done ∨
      (runFrom Binary32.round crc start (before ++ .enter input :: during)).code = .halt)
    (hrestart : ∀ e ∈ restart, e.isEnter = false) (hsteps : 9 ≤ programSteps restart) :
    let old := (runFrom Binary32.round crc start before).state.ctl
    let new := (runFrom Binary32.round crc start (before ++ .enter input :: during)).state.ctl
    let mb := written Binary32.round input.commands old.mb
    let booted := runFrom Binary32.round crc ⟨new.storage.flash, pin, repair⟩ restart
    mb.pendingSaveCmd = true →
    (appSettingsSave crc input.save new.newCfg old.storage).2 = .completed →
      RecordValid crc new.storage.flash ∧ booted.code = .done ∧
      parametersOf booted.state.ctl.mb = parametersOf mb ∧
      booted.state.ctl.mb.pendingStreamStart = mb.autoStartStream := by
  intro old new mb booted hpending hsaved
  obtain ⟨ts, r, hpass⟩ := exists_pass_completes hready hduring hended
  obtain ⟨-, hrest⟩ := Prod.mk.inj (pass_saves hpass hpending)
  obtain ⟨hcfg, hstorage⟩ := Prod.mk.inj hrest
  rw [← hcfg] at hstorage
  have hflash : new.storage.flash = (sealed crc new.newCfg).words :=
    congrArg Storage.flash (hstorage.trans (appSettingsSave_of_completed hsaved))
  have hvalid : RecordValid crc new.storage.flash := by
    rw [hflash]
    exact recordValid_sealed new.newCfg
  obtain ⟨hdone, hparameters, hstream⟩ := @boot_restores Binary32.round crc
    ⟨new.storage.flash, pin, repair⟩ restart hvalid hrestart hsteps
  have hexact : Exact (parametersOf mb) := exact_written _ (runFrom_exact start before)
  have hloaded : loadedParameters (.ofWords new.storage.flash) = parametersOf mb := by
    rw [hflash, SystemSettings.ofWords_words, sealed_parameters]
    exact (congrArg loadedParameters hcfg).trans (fillNewCfg_parameters hexact)
  have hrestored := hparameters.trans hloaded
  exact ⟨hvalid, hdone, hrestored,
    hstream.trans (congrArg Parameters.autoStartStream hrestored)⟩

/-- A speed, a reversed encoder and a stream that starts by itself, saved. -/
def writeThenSave : PassInput :=
  writes [(.motorRpm, 123), (.encoderDir, 1), (.autoStream, 1), (.saveSettings, 1)]

/-- They are there after a restart. -/
theorem reboot_restores_written :
    let saved := runFrom Binary32.round stm32Crc (emptyFlash false)
      (bootAndPasses [] ++ .enter writeThenSave :: List.replicate 50 .main)
    let booted := runFrom Binary32.round stm32Crc
      ⟨saved.state.ctl.storage.flash, true, flashCompletes⟩ (List.replicate 9 .main)
    parametersOf booted.state.ctl.mb =
        { parametersOf initialConfig with
          targetRPM := Binary32.round (123 / 10)
          accelTimeSec := 5
          encoderReversed := true
          autoStartStream := true } ∧
      booted.state.ctl.mb.pendingStreamStart = true := by
  obtain ⟨-, -, hparameters, hstream⟩ := reboot_restores stm32Crc (emptyFlash false)
    (bootAndPasses []) (List.replicate 50 .main) (List.replicate 9 .main) writeThenSave true
    flashCompletes (Code.returned_iff.mp (by decide +kernel)) (by decide)
    (.inl (Code.returned_iff.mp (by decide +kernel))) (by decide) (by decide)
    (by decide +kernel) (by decide +kernel)
  exact ⟨hparameters.trans (by decide +kernel), hstream.trans (by decide +kernel)⟩

end Firmware
end MDCMotorControl
