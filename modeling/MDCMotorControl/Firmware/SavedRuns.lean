import MDCMotorControl.Firmware.SaveAndReboot

/-!
# Written, saved, restarted

A run up to the end of one of its passes, the last write in it to one of some
registers, and the restart from what it leaves in Flash.

What only these registers change keeps the value that the last write gives it: to the
end of the run, in the record of a save, and through a restart.

Main results:

- Theorem `LastWrite.batch_part`: the value at the end of the run.
- Theorem `PassRun.last_uartBaudRate`: the baud rate command has been acted on, even
  if the pass ends with a reset.
- Theorem `PassRun.reboot_of_saves`: the restart after a save that reports success.
-/

namespace MDCMotorControl
namespace Firmware

open Interruptible Motor Settings Modbus Panel FlashSector

/-! ## Runs up to the end of a pass -/

/-- A run whose last pass has returned or has ended with a reset. -/
structure PassRun (crc : List (BitVec 32) → BitVec 32) where
  start : PowerUp
  /-- The schedule up to the last pass. -/
  before : List (Event Bool PassInput)
  input : PassInput
  during : List (Event Bool PassInput)
  ready : (runFrom Binary32.round crc start before).code = .done
  within : ∀ e ∈ during, e.isEnter = false
  ended : (runFrom Binary32.round crc start (before ++ .enter input :: during)).code = .done ∨
    (runFrom Binary32.round crc start (before ++ .enter input :: during)).code = .halt

/-- The first pass after power-up without a settings record, in which a master writes
registers. -/
def firstPass (cmds : List (Register × BitVec 16))
    (h : (runFrom Binary32.round (fun _ => 0) (emptyFlash false)
      (bootAndPasses [writes cmds])).code.returned = true) : PassRun fun _ => 0 where
  start := emptyFlash false
  before := bootAndPasses []
  input := writes cmds
  during := List.replicate 50 .main
  ready := Code.returned_iff.mp (by decide +kernel)
  within := by decide
  ended := .inl (Code.returned_iff.mp h)

namespace PassRun

variable {crc : List (BitVec 32) → BitVec 32} (s : PassRun crc)

/-- The control state before the last pass. -/
def old : Control :=
  (runFrom Binary32.round crc s.start s.before).state.ctl

/-- The control state after the last pass. -/
def last : Control :=
  (runFrom Binary32.round crc s.start (s.before ++ .enter s.input :: s.during)).state.ctl

/-- The Modbus structure after the batch of the last pass. -/
def batch : ModbusConfig :=
  written Binary32.round s.input.commands s.old.mb

/-- The record that a save in the last pass writes. -/
def record : SystemSettings :=
  (fillNewCfg { s.old with mb := s.batch }).newCfg

/-- The outcome of this save. -/
def outcome : Outcome :=
  (appSettingsSave crc s.input.save s.record s.old.storage).2

/-- The last pass saves, and the save reports success. -/
def Saves : Prop :=
  s.batch.pendingSaveCmd = true ∧ s.outcome = .completed

/-- The last pass saves, and a power loss ends it there. -/
def Cut : Prop :=
  s.batch.pendingSaveCmd = true ∧ s.outcome = .cut

/-- A restart from what the run leaves in Flash. -/
def reboot (pin : Bool) (repair : Outcomes 12) (restart : List (Event Bool PassInput)) :
    Config World :=
  runFrom Binary32.round crc ⟨s.last.storage.flash, pin, repair⟩ restart

theorem completes :
    ∃ ts r, Completes (sysTickHandler Binary32.round) (pass Binary32.round crc s.input)
      (runFrom Binary32.round crc s.start s.before).state ts r
      (runFrom Binary32.round crc s.start (s.before ++ .enter s.input :: s.during)).state :=
  exists_pass_completes s.ready s.within s.ended

variable {s}

theorem Saves.not_cut (h : s.Saves) : ¬ s.Cut := by
  rintro ⟨_, hcut⟩
  rw [h.2] at hcut
  cases hcut

variable (s)

/-- The parameters at the end of the run are those after the batch. -/
theorem last_parameters : parametersOf s.last.mb = parametersOf s.batch := by
  obtain ⟨ts, r, hpass⟩ := s.completes
  obtain ⟨_, _, w₁, _, hreceive, hrest⟩ := hpass.seq_inv_returns (receive_returns _)
  have hctl : w₁.ctl = { s.old with mb := s.batch } :=
    (hreceive.determined (sysTickHandler_ctl _) (receive_determined _) rfl).trans
      (receive_exec _ _)
  have hkept := hrest.unchanged (fun pin w => by rw [sysTickHandler_ctl])
    (afterReceive_parameters s.input)
  exact hkept.trans (by rw [hctl])

/-- The baud rate command has been acted on, also in a pass that ends with a reset. -/
theorem last_uartBaudRate (h : ¬ s.Cut) : s.last.uartBaudRate = s.last.mb.uartBaudRate := by
  obtain ⟨ts, r, hpass⟩ := s.completes
  obtain ⟨v, us, hrest, hmb, hcfg, hstorage, hagrees⟩ := pass_until_save hpass
  have hold : Agrees s.old :=
    wp_returned (Q := fun w : World => Agrees w.ctl) (runFrom_agrees s.start s.before) s.ready
  have hv : Cleared [] v.ctl := ⟨hagrees hold, fun f hf => by cases hf⟩
  rcases hrest.seq_inv with ⟨_, _, u, _, hsave, hrest⟩ | ⟨_, hsave⟩
  · have hu : Cleared [.saveCmd] u.ctl :=
      (hsave.wp_post (@command_cleared Binary32.round crc s.input.save [] .saveCmd v hv)).2 rfl
    rw [Code.block_cons, commands_eq, Code.seq_assoc] at hrest
    obtain ⟨_, _, x, _, hfront, hrest⟩ := hrest.seq_inv_returns commandsBeforeReboot_returns
    have hx := (hfront.wp_post (commandsBeforeReboot_cleared u hu)).2 rfl
    have hrate : x.ctl.uartBaudRate = x.ctl.mb.uartBaudRate :=
      hx.1.baudRate (hx.2 .baudChange (by decide))
    -- the reset and the motor state machine come after the command
    have hkeeps : (rebootCommand.seq (.block [motorStateMachine Binary32.round])).Keeps
        fun w => (w.ctl.uartBaudRate, w.ctl.mb.uartBaudRate) :=
      .seq (.whenever <| .block_cons (.stmt fun _ => rfl) <| .block_cons (.stmt fun _ => rfl) <|
        .block_cons (.stmt fun _ => rfl) <| .block_cons (fun _ => trivial) .block_nil) <|
        .block_cons (motorStateMachine_keeps _ (fun _ _ => rfl) fun _ _ => rfl) .block_nil
    have hunchanged := hrest.unchanged (fun pin w => by rw [sysTickHandler_ctl]) hkeeps
    obtain ⟨hlast, hlast'⟩ := Prod.mk.inj hunchanged
    exact hlast.trans (hrate.trans hlast'.symm)
  · have hexit := hsave.exit_determined (sysTickHandler_ctl _) saveCommand_determined rfl
    rw [saveCommand_exit] at hexit
    have hrecord : (fillNewCfg v.ctl).newCfg = s.record := by
      rw [record, fillNewCfg, fillNewCfg, hmb, hcfg]
      rfl
    rw [hmb, hrecord, hstorage] at hexit
    split at hexit
    case isTrue hcut => exact absurd hcut h
    case isFalse => cases hexit

/-! ## Save and restart -/

variable {s}

/-- A save that reports success leaves the record in Flash and in the RAM copy. -/
theorem last_storage (h : s.Saves) :
    s.last.storage = ⟨(sealed crc s.record).words, sealed crc s.record⟩ := by
  obtain ⟨ts, r, hpass⟩ := s.completes
  obtain ⟨_, hrest⟩ := Prod.mk.inj (pass_saves hpass h.1)
  exact (Prod.mk.inj hrest).2.trans (appSettingsSave_of_completed h.2)

/-- The record is valid. -/
theorem last_valid (h : s.Saves) : RecordValid crc s.last.storage.flash := by
  rw [last_storage h]
  exact recordValid_sealed s.record

/-- The record has the parameters of the batch. -/
theorem loaded_last (h : s.Saves) :
    loadedParameters (.ofWords s.last.storage.flash) = parametersOf s.batch := by
  have hexact : Exact (parametersOf s.batch) := exact_written _ (runFrom_exact s.start s.before)
  rw [last_storage h, SystemSettings.ofWords_words, sealed_parameters]
  exact fillNewCfg_parameters hexact

/-- A restart after a save that reports success has the parameters of the batch in the
settings and in the Modbus structure, and their baud rate in the UART handle. -/
theorem reboot_of_saves (h : s.Saves) {pin : Bool} {repair : Outcomes 12}
    {restart : List (Event Bool PassInput)} (hrestart : ∀ e ∈ restart, e.isEnter = false)
    (hsteps : 9 ≤ programSteps restart) :
    let booted := s.reboot pin repair restart
    booted.code = .done ∧
      loadedParameters booted.state.ctl.settings = parametersOf s.batch ∧
      parametersOf booted.state.ctl.mb = parametersOf s.batch ∧
      booted.state.ctl.uartBaudRate = s.batch.uartBaudRate := by
  intro booted
  obtain ⟨hdone, hctl⟩ := @boot_ends Binary32.round crc ⟨s.last.storage.flash, pin, repair⟩
    restart (last_valid h) hrestart hsteps
  obtain ⟨hsettings, hrate, hparameters, _⟩ := @boot_exec_loads crc repair
    (.powerUp s.last.storage.flash pin) (last_valid h)
  have hloaded : loadedParameters booted.state.ctl.settings = parametersOf s.batch := by
    rw [← loaded_last h]
    exact congrArg loadedParameters ((congrArg Control.settings hctl).trans hsettings)
  rw [← hctl] at hrate hparameters
  exact ⟨hdone, hloaded, hparameters.trans hloaded,
    hrate.trans (congrArg Parameters.uartBaudRate hloaded)⟩

end PassRun

/-! ## The last write -/

/-- No command of the batch writes one of the registers. -/
def Avoids (rs : List Register) (cmds : List (Register × BitVec 16)) : Prop :=
  ∀ c ∈ cmds, c.1 ∉ rs

/-- The control state in which a segment finds the Modbus structure, after the earlier
ones of its batch. -/
def afterDeliveries (ctl : Control) (earlier : List (Pbuf × (ℕ → ReadInputs))) : Control :=
  { ctl with mb := written Binary32.round (earlier.filterMap fun d => d.1.command) ctl.mb }

/-- The segment `p`, received in the control state `ctl`, is the last of the run that
may write one of the registers: it is in the batch of the last pass, or in that of an
earlier one. -/
inductive LastWrite {crc : List (BitVec 32) → BitVec 32} (rs : List Register) (p : Pbuf)
    (s : PassRun crc) : Control → Prop where
  | inLastPass {earlier later : List (Pbuf × (ℕ → ReadInputs))} {inputs : ℕ → ReadInputs}
      (hdeliveries : s.input.deliveries = earlier ++ (p, inputs) :: later)
      (hlater : Avoids rs (later.filterMap fun d => d.1.command)) :
      LastWrite rs p s (afterDeliveries s.old earlier)
  | inEarlierPass {before after : List (Event Bool PassInput)} {input : PassInput}
      {earlier later : List (Pbuf × (ℕ → ReadInputs))} {inputs : ℕ → ReadInputs}
      (hbefore : s.before = before ++ .enter input :: after)
      (hready : (runFrom Binary32.round crc s.start before).code = .done)
      (hdeliveries : input.deliveries = earlier ++ (p, inputs) :: later)
      (hlater : Avoids rs (later.filterMap fun d => d.1.command))
      (hafter : ∀ i, .enter i ∈ after → Avoids rs i.commands)
      (hlast : Avoids rs s.input.commands) :
      LastWrite rs p s
        (afterDeliveries (runFrom Binary32.round crc s.start before).state.ctl earlier)

/-- It finds a state that the network processing of a pass reaches. -/
theorem LastWrite.exists_ready {crc : List (BitVec 32) → BitVec 32} {rs : List Register}
    {p : Pbuf} {s : PassRun crc} {ctl : Control} (h : LastWrite rs p s ctl) :
    ∃ schedule earlier, (runFrom Binary32.round crc s.start schedule).code = .done ∧
      ctl = afterDeliveries (runFrom Binary32.round crc s.start schedule).state.ctl earlier := by
  cases h with
  | inLastPass => exact ⟨_, _, s.ready, rfl⟩
  | inEarlierPass _ hready => exact ⟨_, _, hready, rfl⟩

section

variable {crc : List (BitVec 32) → BitVec 32} {α : Type*} {rs : List Register}
  {part : Parameters → α}

/-- A pass leaves the parameters that its batch leaves. -/
theorem pass_parameters (input : PassInput) (w : World) :
    wp (sysTickHandler Binary32.round) (fun _ => True)
      (fun w' => parametersOf w'.ctl.mb =
        parametersOf (written Binary32.round input.commands w.ctl.mb))
      (pass Binary32.round crc input) w := by
  have hreceive := Triple.determined (sysTickHandler_ctl Binary32.round)
    (@receive_determined Binary32.round input.deliveries) w
  refine (hreceive.conseq (fun _ => id) fun v hv => ?_).seq
    (.keeps (fun pin w => by rw [sysTickHandler_ctl]) (afterReceive_parameters input)
      (parametersOf (written Binary32.round input.commands w.ctl.mb))) w rfl
  rw [hv, receive_exec]
  rfl

/-- What only some registers change, other writes leave alone. -/
theorem written_part
    (hpart : ∀ r ∉ rs, ∀ mb v,
      part (parametersOf (writeRegister Binary32.round mb r v)) = part (parametersOf mb))
    {cmds : List (Register × BitVec 16)} (h : Avoids rs cmds) (mb : ModbusConfig) :
    part (parametersOf (written Binary32.round cmds mb)) = part (parametersOf mb) := by
  induction cmds generalizing mb with
  | nil => rfl
  | cons c cmds ih =>
      have hrest := ih (fun d hd => h d (List.mem_cons_of_mem c hd))
        (writeRegister Binary32.round mb c.1 c.2)
      exact hrest.trans (hpart c.1 (h c List.mem_cons_self) mb c.2)

/-- A batch, split at one of its segments. -/
theorem written_split (earlier later : List (Pbuf × (ℕ → ReadInputs))) (p : Pbuf)
    (inputs : ℕ → ReadInputs) (ctl : Control) :
    written Binary32.round
        ((earlier ++ (p, inputs) :: later).filterMap fun d => d.1.command) ctl.mb =
      written Binary32.round (later.filterMap fun d => d.1.command)
        (applyCommand Binary32.round (afterDeliveries ctl earlier).mb p.command) := by
  rw [List.filterMap_append, written, List.foldl_append]
  cases hcommand : p.command with
  | none => simp [hcommand, applyCommand, written, afterDeliveries]
  | some c => simp [hcommand, applyCommand, written, afterDeliveries]

/-- What only some registers change has, after the batch of the last pass, the value
that the last write to them gave it. -/
theorem LastWrite.batch_part
    (hpart : ∀ r ∉ rs, ∀ mb v,
      part (parametersOf (writeRegister Binary32.round mb r v)) = part (parametersOf mb))
    {p : Pbuf} {s : PassRun crc} {ctl : Control} (h : LastWrite rs p s ctl) :
    part (parametersOf s.batch) =
      part (parametersOf (applyCommand Binary32.round ctl.mb p.command)) := by
  cases h with
  | @inLastPass earlier later inputs hdeliveries hlater =>
      rw [PassRun.batch, PassInput.commands, hdeliveries, written_split]
      exact written_part hpart hlater _
  | @inEarlierPass before after input earlier later inputs hbefore hready hdeliveries hlater
      hafter hlast =>
      set a := part (parametersOf (applyCommand Binary32.round (afterDeliveries
        (runFrom Binary32.round crc s.start before).state.ctl earlier).mb p.command)) with ha
      have hentered : wp (firmware Binary32.round crc).irq (fun _ => True)
          (fun w => part (parametersOf w.ctl.mb) = a) (pass Binary32.round crc input)
          (runFrom Binary32.round crc s.start before).state := by
        refine wp_mono (fun _ => id) (fun w hw => ?_) (pass_parameters input _)
        rw [hw, PassInput.commands, hdeliveries, written_split]
        exact written_part hpart hlater _
      have hpasses : ∀ i, .enter i ∈ after → ∀ w, part (parametersOf w.ctl.mb) = a →
          wp (firmware Binary32.round crc).irq (fun _ => True)
            (fun w => part (parametersOf w.ctl.mb) = a) (pass Binary32.round crc i) w := by
        intro i hi w hw
        refine wp_mono (fun _ => id) (fun w' hw' => ?_) (pass_parameters i w)
        rw [hw', written_part hpart (hafter i hi), hw]
      have hrun : runFrom Binary32.round crc s.start s.before =
          (firmware Binary32.round crc).run after
            ⟨pass Binary32.round crc input, (runFrom Binary32.round crc s.start before).state⟩ := by
        rw [hbefore]
        exact System.run_enter _ hready
      have hbefore' := System.run_invariant_of (c := ⟨pass Binary32.round crc input, _⟩) hpasses
        hentered
      rw [← hrun] at hbefore'
      rw [PassRun.batch, written_part hpart hlast]
      exact wp_returned (Q := fun w : World => part (parametersOf w.ctl.mb) = a) hbefore' s.ready

end

end Firmware
end MDCMotorControl
