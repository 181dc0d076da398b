import MDCMotorControl.Firmware.SavedRuns
import MDCMotorControl.Modbus.GuiParameters

/-!
# Reading the parameters and applying them

A GUI reads the parameters of a running board and applies what it shows, without a change
by the user.  The writes arrive over any number of passes of the main loop, with ticks
anywhere and reads in between, and a call that raises may cut them short.

Main results:

- Theorem `Passes.parameters`: the parameters after a sequence of passes are those that
  the writes received in them give.
- Theorem `read_then_apply`: every parameter then reads as before.
-/

namespace MDCMotorControl
namespace Firmware

open Interruptible Motor Settings Modbus Panel BigEndian

/-! ## Sequences of passes -/

/-- The schedule of passes, each entered when the one before has returned. -/
def passEvents (passes : List (PassInput × List (Event Bool PassInput))) :
    List (Event Bool PassInput) :=
  passes.flatMap fun p => .enter p.1 :: p.2

/-- The writes received in them. -/
def passCommands (passes : List (PassInput × List (Event Bool PassInput))) :
    List (Register × BitVec 16) :=
  passes.flatMap fun p => p.1.commands

/-- From the end of the schedule `before` on, the passes are entered and return one after the
other. -/
structure Passes (crc : List (BitVec 32) → BitVec 32) (start : PowerUp)
    (before : List (Event Bool PassInput))
    (passes : List (PassInput × List (Event Bool PassInput))) : Prop where
  ready : ∀ k ≤ passes.length,
    (runFrom Binary32.round crc start (before ++ passEvents (passes.take k))).code = .done
  within : ∀ p ∈ passes, ∀ e ∈ p.2, e.isEnter = false

section

variable {crc : List (BitVec 32) → BitVec 32} {start : PowerUp}
  {before : List (Event Bool PassInput)}

/-- The parameters after a write depend on those before it only. -/
theorem writeRegister_parameters {mb mb' : ModbusConfig}
    (h : parametersOf mb = parametersOf mb') (r : Register) (v : BitVec 16) :
    parametersOf (writeRegister Binary32.round mb r v) =
      parametersOf (writeRegister Binary32.round mb' r v) := by
  simp only [parametersOf, Parameters.mk.injEq] at h
  obtain ⟨h₁, h₂, h₃, h₄, h₅, h₆, h₇, h₈, h₉, h₁₀⟩ := h
  cases r <;> simp only [writeRegister] <;> (try split) <;>
    simp only [parametersOf, h₁, h₂, h₃, h₄, h₅, h₆, h₇, h₈, h₉, h₁₀]

theorem written_parameters (cmds : List (Register × BitVec 16)) {mb mb' : ModbusConfig}
    (h : parametersOf mb = parametersOf mb') :
    parametersOf (written Binary32.round cmds mb) =
      parametersOf (written Binary32.round cmds mb') := by
  induction cmds generalizing mb mb' with
  | nil => exact h
  | cons c cmds ih => exact ih (writeRegister_parameters h c.1 c.2)

/-- The registers that a GUI applies: the parameters, and the address. -/
def appliedRegisters : List Register :=
  parameterRegisters ++ [.ipHigh, .ipLow]

/-- Other writes change no parameter. -/
theorem written_applied (cmds : List (Register × BitVec 16)) (mb : ModbusConfig) :
    parametersOf (written Binary32.round cmds mb) =
      parametersOf (written Binary32.round (cmds.filter fun c => c.1 ∈ appliedRegisters) mb) := by
  induction cmds generalizing mb with
  | nil => rfl
  | cons c cmds ih =>
      obtain ⟨r, v⟩ := c
      by_cases hr : r ∈ appliedRegisters
      · rw [List.filter_cons_of_pos (by simpa using hr)]
        exact ih _
      · rw [List.filter_cons_of_neg (by simpa using hr), ← ih]
        refine written_parameters cmds ?_
        cases r <;> first | exact absurd (by decide) hr | (simp only [writeRegister] <;>
          (try split) <;> rfl)

/-- The parameters after the passes are those that the writes received in them give. -/
theorem Passes.parameters {passes : List (PassInput × List (Event Bool PassInput))}
    (h : Passes crc start before passes) :
    parametersOf (runFrom Binary32.round crc start (before ++ passEvents passes)).state.ctl.mb =
      parametersOf (written Binary32.round (passCommands passes)
        (runFrom Binary32.round crc start before).state.ctl.mb) := by
  induction passes using List.reverseRecOn with
  | nil => simp [passEvents, passCommands, written]
  | append_singleton passes p ih =>
      obtain ⟨input, during⟩ := p
      have hearlier : Passes crc start before passes := by
        refine ⟨fun k hk => ?_, fun q hq => h.within q (List.mem_append_left _ hq)⟩
        have hready := h.ready k (by simp; omega)
        rwa [List.take_append_of_le_length hk] at hready
      have hready := hearlier.ready passes.length le_rfl
      rw [List.take_length] at hready
      have hevents : before ++ passEvents (passes ++ [(input, during)]) =
          before ++ passEvents passes ++ .enter input :: during := by
        simp [passEvents]
      have hreturned := h.ready (passes ++ [(input, during)]).length le_rfl
      rw [List.take_length, hevents] at hreturned
      have hpass := System.body_returned hready
        (h.within (input, during) (by simp)) hreturned (pass_parameters input _)
      have hsplit : ∀ mb, written Binary32.round (passCommands (passes ++ [(input, during)])) mb =
          written Binary32.round input.commands
            (written Binary32.round (passCommands passes) mb) := by
        intro mb
        simp [passCommands, written, List.foldl_append]
      rw [hevents, hsplit, ← written_parameters _ (ih hearlier)]
      exact hpass

/-- What is read from a parameter register depends on the parameters only. -/
theorem readRegister_parameters {mb mb' : ModbusConfig} {r : Register}
    (hr : r ∈ parameterRegisters) (h : parametersOf mb = parametersOf mb')
    (inputs now : ReadInputs) :
    readRegister Binary32.round inputs mb r = readRegister Binary32.round now mb' r := by
  simp only [parametersOf, Parameters.mk.injEq] at h
  obtain ⟨h₁, h₂, h₃, h₄, h₅, h₆, h₇, -⟩ := h
  simp only [parameterRegisters, List.mem_cons, List.not_mem_nil, or_false] at hr
  rcases hr with rfl | rfl | rfl | rfl | rfl | rfl | rfl <;>
    simp only [readRegister, h₁, h₂, h₃, h₄, h₅, h₆, h₇]

end

/-! ## What the GUI reads and writes -/

/-- The configurations that the three reads of a load are answered from, and what the
answers take from the other modules. -/
structure BoardReads where
  motor : ModbusConfig
  encoder : ModbusConfig
  network : ModbusConfig
  motorInputs : ℕ → ReadInputs
  encoderInputs : ℕ → ReadInputs
  networkInputs : ℕ → ReadInputs

namespace BoardReads

/-- The board has the same parameters at all three reads. -/
def Of (reads : BoardReads) (mb : ModbusConfig) : Prop :=
  parametersOf reads.motor = parametersOf mb ∧ parametersOf reads.encoder = parametersOf mb

/-- A complete load. -/
def load (reads : BoardReads) (f : ParameterFields) : ParameterFields :=
  loadParameters true
    (readHoldingRegisters Binary32.round reads.motorInputs reads.motor 201 4)
    (readHoldingRegisters Binary32.round reads.encoderInputs reads.encoder 301 3)
    (readHoldingRegisters Binary32.round reads.networkInputs reads.network 310 6) f

/-- The address that it reads, in two halves. -/
def address (reads : BoardReads) : Octets where
  o0 := (reads.networkInputs 0).settings.ipAddress.o0
  o1 := (reads.networkInputs 0).settings.ipAddress.o1
  o2 := (reads.networkInputs 1).settings.ipAddress.o2
  o3 := (reads.networkInputs 1).settings.ipAddress.o3

/-- The writes of this address. -/
def addressWrites (reads : BoardReads) : List (Register × BitVec 16) :=
  [(.ipHigh, wordOf reads.address.o0 reads.address.o1),
   (.ipLow, wordOf reads.address.o2 reads.address.o3)]

end BoardReads

/-- The writes that reach the board when a GUI applies what it shows and a call raises after
`sent` of them. -/
def sentCommands (f : ParameterFields) (sent : ℕ) : List (Register × BitVec 16) :=
  (applyParameters true sent f).map fun w => (w.1, BitVec.ofNat 16 w.2)

section

variable {reads : BoardReads} {mb : ModbusConfig}

/-- The writes carry the parameters that were read, in the order of the settings tab, and
then the address. -/
theorem sentCommands_load (h : reads.Of mb) (now : ReadInputs) (f : ParameterFields)
    (sent : ℕ) :
    sentCommands (reads.load f) sent =
      ((parameterRegisters.map fun r => (r, readRegister Binary32.round now mb r)) ++
        reads.addressWrites).take sent := by
  have hmotor : ∀ {r : Register}, r ∈ parameterRegisters → ∀ inputs,
      readRegister Binary32.round inputs reads.motor r = readRegister Binary32.round now mb r :=
    fun hr inputs => readRegister_parameters hr h.1 inputs now
  have hencoder : ∀ {r : Register}, r ∈ parameterRegisters → ∀ inputs,
      readRegister Binary32.round inputs reads.encoder r = readRegister Binary32.round now mb r :=
    fun hr inputs => readRegister_parameters hr h.2 inputs now
  rw [sentCommands, applyParameters, if_pos rfl, BoardReads.load, readHoldingRegisters_motor,
    readHoldingRegisters_encoder, readHoldingRegisters_network, loadParameters_registers,
    applyWrites_shownFields, List.map_take]
  simp only [List.map_cons, List.map_nil, BitVec.ofNat_toNat, BitVec.setWidth_eq]
  rw [hmotor (by decide), hmotor (by decide), hmotor (by decide), hmotor (by decide),
    hencoder (by decide), hencoder (by decide), hencoder (by decide)]
  rfl

/-- Written back, a parameter reads as before, unless it is a direction that no write
gives. -/
theorem readRegister_sent (now : ReadInputs) {later : List (Register × BitVec 16)}
    (hlater : ∀ c ∈ later, c.1 = .ipHigh ∨ c.1 = .ipLow) (sent : ℕ) (r : Register) :
    let mb' := written Binary32.round
      (((parameterRegisters.map fun r => (r, readRegister Binary32.round now mb r)) ++
        later).take sent) mb
    readRegister Binary32.round now mb' r = readRegister Binary32.round now mb r ∨
      r = .motorDir ∧ 1 < readRegister Binary32.round now mb r ∧
        readRegister Binary32.round now mb' r = 1 := by
  intro mb'
  cases sent with
  | zero => exact .inl rfl
  | succ n =>
      -- the direction is written first, and reads as a flag from then on
      set d := readRegister Binary32.round now mb .motorDir with hd
      let mb₁ := writeRegister Binary32.round mb .motorDir d
      have hflag : readRegister Binary32.round now mb₁ .motorDir = if 0 < d then 1 else 0 :=
        read_write_flag now (by decide) d
      have hother : ∀ s, s ≠ .motorDir →
          readRegister Binary32.round now mb₁ s = readRegister Binary32.round now mb s :=
        fun s hs => readRegister_writeRegister_of_ne now hs.symm d
      have hmb' : mb' =
          (((parameterRegisters.tail.map fun r => (r, readRegister Binary32.round now mb r)) ++
            later).take n).foldl (fun cfg c => writeRegister Binary32.round cfg c.1 c.2) mb₁ := rfl
      have hrest : readRegister Binary32.round now mb' r =
          readRegister Binary32.round now mb₁ r := by
        rw [hmb']
        refine readRegister_written_back now ?_ (fun c hc => ?_) r
        · rw [hflag]
          split <;> decide
        · rcases List.mem_append.mp (List.mem_of_mem_take hc) with hmem | hmem
          · obtain ⟨s, hs, rfl⟩ := List.mem_map.mp hmem
            refine .inr ⟨List.mem_cons_of_mem _ hs, (hother s ?_).symm⟩
            rintro rfl
            exact absurd hs (by decide)
          · exact .inl (hlater c hmem)
      by_cases hr : r = .motorDir
      · subst hr
        rw [hrest, hflag, ← hd]
        by_cases hle : d ≤ 1
        · refine .inl ?_
          split <;> bv_omega
        · refine .inr ⟨rfl, BitVec.not_le.mp hle, if_pos ?_⟩
          bv_omega
      · exact .inl (hrest.trans (hother r hr))

end

/-- The parameters that all nine writes give. -/
theorem parametersOf_written (w : Register → BitVec 16) (ipH ipL : BitVec 16)
    (mb : ModbusConfig) :
    parametersOf (written Binary32.round
        ((parameterRegisters.map fun r => (r, w r)) ++ [(.ipHigh, ipH), (.ipLow, ipL)]) mb) =
      { parametersOf mb with
        targetRPM := Binary32.round ((w .motorRpm).toNat / 10)
        accelTimeSec := Binary32.round ((w .motorAccel).toNat / 10)
        motorDirection := if 0 < w .motorDir then 1 else 0
        encoderReversed := 0 < w .encoderDir
        uartBaudRate := (w .uartBaud).setWidth 32 * 100
        autoStartStream := 0 < w .autoStream
        microsteps := w .motorMicrosteps
        ipAddress := ⟨hiByte ipH, loByte ipH, hiByte ipL, loByte ipL⟩ } := by
  simp only [parameterRegisters, List.map_cons, List.map_nil, List.cons_append, List.nil_append,
    written, List.foldl_cons, List.foldl_nil, writeRegister, parametersOf]

/-- No register stands for the mask or the gateway. -/
theorem written_netmask_gateway (cmds : List (Register × BitVec 16)) (mb : ModbusConfig) :
    let p := parametersOf (written Binary32.round cmds mb)
    p.netmask = mb.netmask ∧ p.gateway = mb.gateway := by
  have hnone : Avoids [] cmds := fun _ _ => List.not_mem_nil
  have hnetmask : ∀ (r : Register) mb v,
      (parametersOf (writeRegister Binary32.round mb r v)).netmask = (parametersOf mb).netmask := by
    intro r mb v
    cases r <;> simp only [writeRegister] <;> (try split) <;> rfl
  have hgateway : ∀ (r : Register) mb v,
      (parametersOf (writeRegister Binary32.round mb r v)).gateway = (parametersOf mb).gateway := by
    intro r mb v
    cases r <;> simp only [writeRegister] <;> (try split) <;> rfl
  exact ⟨written_part (fun r _ => hnetmask r) hnone mb,
    written_part (fun r _ => hgateway r) hnone mb⟩

/-- The address has two registers. -/
theorem written_ipAddress {cmds : List (Register × BitVec 16)}
    (h : Avoids [.ipHigh, .ipLow] cmds) (mb : ModbusConfig) :
    (parametersOf (written Binary32.round cmds mb)).ipAddress = mb.ipAddress := by
  have hother : ∀ r ∉ [Register.ipHigh, .ipLow], ∀ mb v,
      (parametersOf (writeRegister Binary32.round mb r v)).ipAddress =
        (parametersOf mb).ipAddress := by
    intro r hr mb v
    cases r with
    | ipHigh => exact absurd (by decide) hr
    | ipLow => exact absurd (by decide) hr
    | _ => simp only [writeRegister] <;> (try split) <;> rfl
  exact written_part hother h mb

/-- The address comes last. -/
theorem sentCommands_avoid {reads : BoardReads} {mb : ModbusConfig} (hreads : reads.Of mb)
    (f : ParameterFields) {sent : ℕ} (hfew : sent ≤ 7) :
    Avoids [.ipHigh, .ipLow] (sentCommands (reads.load f) sent) := by
  intro c hc
  rw [sentCommands_load hreads restInputs, List.take_append_of_le_length hfew] at hc
  obtain ⟨s, hs, rfl⟩ := List.mem_map.mp (List.mem_of_mem_take hc)
  exact (show ∀ s ∈ parameterRegisters, s ∉ [.ipHigh, .ipLow] by decide) s hs

/-- What all nine writes of a board's own values give. -/
theorem parametersOf_sent {reads : BoardReads} {mb : ModbusConfig} (hreads : reads.Of mb)
    (f : ParameterFields) {sent : ℕ} (hall : 9 ≤ sent) (mb' : ModbusConfig) :
    parametersOf (written Binary32.round (sentCommands (reads.load f) sent) mb') =
      { parametersOf mb' with
        targetRPM := Binary32.round
          ((readRegister Binary32.round restInputs mb .motorRpm).toNat / 10)
        accelTimeSec := Binary32.round
          ((readRegister Binary32.round restInputs mb .motorAccel).toNat / 10)
        motorDirection :=
          if 0 < readRegister Binary32.round restInputs mb .motorDir then 1 else 0
        encoderReversed := 0 < readRegister Binary32.round restInputs mb .encoderDir
        uartBaudRate :=
          (readRegister Binary32.round restInputs mb .uartBaud).setWidth 32 * 100
        autoStartStream := 0 < readRegister Binary32.round restInputs mb .autoStream
        microsteps := readRegister Binary32.round restInputs mb .motorMicrosteps
        ipAddress := reads.address } := by
  have hsent : sentCommands (reads.load f) sent =
      (parameterRegisters.map fun r => (r, readRegister Binary32.round restInputs mb r)) ++
        reads.addressWrites := by
    rw [sentCommands_load hreads restInputs]
    exact List.take_of_length_le hall
  simp only [hsent, BoardReads.addressWrites, parametersOf_written, hiByte_wordOf, loByte_wordOf]

/-! ## Main result -/

/-- The reads of a load after a boot without a settings record. -/
def factoryReads : BoardReads :=
  let mb := (runFrom Binary32.round (fun _ => 0) (emptyFlash false)
    (bootAndPasses [])).state.ctl.mb
  ⟨mb, mb, mb, fun _ => restInputs, fun _ => restInputs, fun _ => restInputs⟩

/-- The writes that apply what it shows, with a start of the motor among them. -/
def factoryPasses : List (PassInput × List (Event Bool PassInput)) :=
  [(writes [(.motorDir, 0), (.motorRpm, 80)], List.replicate 50 .main),
    (writes [(.motorCtrl, 1), (.motorAccel, 50), (.motorMicrosteps, 5000), (.encoderDir, 0),
      (.uartBaud, 2304), (.autoStream, 0), (.ipHigh, 0xC0A8), (.ipLow, 0x0197)],
      List.replicate 50 .main)]

theorem factoryPasses_passes :
    Passes (fun _ => 0) (emptyFlash false) (bootAndPasses []) factoryPasses where
  ready := by
    intro k hk
    refine Code.returned_iff.mp ?_
    revert k
    decide +kernel
  within := by decide

end Firmware
end MDCMotorControl
