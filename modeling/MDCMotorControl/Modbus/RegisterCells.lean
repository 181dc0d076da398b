import MDCMotorControl.Library.Binary32Rounding
import MDCMotorControl.Modbus.BlockReads

/-!
# Registers as cells of the configuration

Which registers a write changes, what a read returns afterwards, and that writes of
different registers do not touch each other.  The speed and the ramp time are kept as
numbers of a tenth of the register value, so they come back through a division and a
multiplication by ten, both rounded.

Main results:

- Theorem `recv_changes_only_write`: the configuration changes only by complete writes
  of writable registers.
- Theorem `registers_independent_cells`: reads after writes, and writes in either
  order.
-/

namespace MDCMotorControl
namespace Modbus

open Motor Settings BigEndian

/-! ## Writable registers -/

/-- The registers with a case in the FC06 branch. -/
def Register.writable : Register → Bool
  | .motorCtrl | .motorDir | .motorRpm | .motorAccel | .motorMicrosteps | .streamCtrl
  | .encoderDir | .uartBaud | .autoStream | .saveSettings | .ipHigh | .ipLow
  | .systemReboot => true
  | _ => false

section

variable {fl : ℚ → ℚ} {cfg : ModbusConfig} {p : Pbuf}

/-- A write to a register without a case has no effect. -/
theorem writeRegister_of_not_writable {r : Register} (h : r.writable = false) (v : BitVec 16) :
    writeRegister fl cfg r v = cfg := by
  cases r <;> first | rfl | simp [Register.writable] at h

/-- A segment that is a write is executed. -/
theorem recv_write {inputs : ℕ → ReadInputs} {address v : BitVec 16}
    (h : p.IsRequest fcWriteSingleReg address v) :
    (modbusRecvCb fl inputs cfg (some p) 0).cfg = writeAddress fl cfg address v := by
  rw [(recv_frame h.header).1, handleFrame_write h.code_eq, h.address_eq, h.value_eq]

/-- It is acknowledged with an echo of the request. -/
theorem recv_write_frames {inputs : ℕ → ReadInputs} {address v : BitVec 16}
    (h : p.IsRequest fcWriteSingleReg address v) :
    (modbusRecvCb fl inputs cfg (some p) 0).frames = [(List.range 12).map p.data] := by
  rw [(recv_frame h.header).2, handleFrame_write h.code_eq]
  rfl

/-- The command of a segment does not depend on the bytes before the function code. -/
theorem Pbuf.command_congr {q : Pbuf} (hp : mbapHeaderSize ≤ p.payload.length)
    (hq : mbapHeaderSize ≤ q.payload.length) (hdata : ∀ i < 12, 7 ≤ i → q.data i = p.data i) :
    q.command = p.command := by
  simp only [Pbuf.command, hp, hq, true_and, hdata 7 (by decide) (by decide),
    hdata 8 (by decide) (by decide), hdata 9 (by decide) (by decide),
    hdata 10 (by decide) (by decide), hdata 11 (by decide) (by decide)]

/-- Of the segments shorter than the header or at least as long as a request, only a
write of a writable register changes the configuration, and it changes it to what the
case of this register says.  The bytes before the function code play no part in it. -/
theorem recv_changes_only_write {inputs : ℕ → ReadInputs} {err : Int}
    (hlength : p.payload.length < mbapHeaderSize ∨ 12 ≤ p.payload.length)
    (hchanged : (modbusRecvCb fl inputs cfg (some p) err).cfg ≠ cfg) :
    (12 ≤ p.payload.length ∧ p.data 7 = fcWriteSingleReg ∧
      ∃ r : Register, r.writable = true ∧ wordOf (p.data 8) (p.data 9) = r.address ∧
        (modbusRecvCb fl inputs cfg (some p) err).cfg =
          writeRegister fl cfg r (wordOf (p.data 10) (p.data 11))) ∧
    ∀ q : Pbuf, mbapHeaderSize ≤ q.payload.length →
      (∀ i < 12, 7 ≤ i → q.data i = p.data i) →
      (modbusRecvCb fl inputs cfg (some q) err).cfg =
        (modbusRecvCb fl inputs cfg (some p) err).cfg := by
  have herr : err = 0 := by
    by_contra hne
    exact hchanged (by simp [modbusRecvCb, hne])
  subst herr
  rw [recv_cfg] at hchanged ⊢
  by_cases hcommand : mbapHeaderSize ≤ p.payload.length ∧ p.data 7 = fcWriteSingleReg
  · have hlong : 12 ≤ p.payload.length := hlength.resolve_left (not_lt.mpr hcommand.1)
    refine ⟨?_, fun q hq hdata => ?_⟩
    · rw [Pbuf.command, if_pos hcommand] at hchanged ⊢
      cases hmapped : Register.ofAddress (wordOf (p.data 8) (p.data 9)) with
      | none => simp [hmapped, applyCommand] at hchanged
      | some r =>
          rw [hmapped] at hchanged
          refine ⟨hlong, hcommand.2, r, ?_, Register.ofAddress_eq_some.mp hmapped, rfl⟩
          by_contra hreadonly
          exact hchanged (writeRegister_of_not_writable (Bool.not_eq_true _ ▸ hreadonly) _)
    · rw [recv_cfg, Pbuf.command_congr hcommand.1 hq hdata]
  · rw [Pbuf.command, if_neg hcommand] at hchanged
    exact absurd rfl hchanged

end

/-- A write of the motor control register with the identifier of another protocol. -/
def foreignProtocol : Pbuf where
  payload := [0, 1, 0, 1, 0, 6, 1, fcWriteSingleReg, 0, 200, 0, 1]
  beyond := fun _ => 0
  totLen := 12

/-- The start command that it carries is what the handler makes of it, as of the one
with the right identifier. -/
theorem recv_changes_only_write_start :
    (∃ r : Register, r.writable = true ∧ wordOf 0 200 = r.address ∧
      (modbusRecvCb id (fun _ => restInputs) initialConfig (some foreignProtocol) 0).cfg =
        writeRegister id initialConfig r (wordOf 0 1)) ∧
    (modbusRecvCb id (fun _ => restInputs) initialConfig
        (some (writeSegment .motorCtrl 1)) 0).cfg =
      (modbusRecvCb id (fun _ => restInputs) initialConfig (some foreignProtocol) 0).cfg := by
  obtain ⟨⟨_, _, r, hwritable, haddress, hcfg⟩, hheader⟩ := @recv_changes_only_write id
    initialConfig foreignProtocol (fun _ => restInputs) 0 (.inr (by decide))
    (by decide +kernel)
  exact ⟨⟨r, hwritable, haddress, hcfg⟩, hheader _ (by decide) (by decide)⟩

/-- The protocol identifier is not looked at: the motor is started. -/
theorem foreign_protocol_starts_motor :
    wordOf (foreignProtocol.data 2) (foreignProtocol.data 3) = 1 ∧
      initialConfig.pendingMotorStart = false ∧
      (modbusRecvCb id (fun _ => restInputs) initialConfig (some foreignProtocol)
        0).cfg.pendingMotorStart = true := by
  decide +kernel

/-! ## Reads after writes -/

section

variable {fl : ℚ → ℚ} {cfg : ModbusConfig} (inputs : ReadInputs)

/-- A write leaves what is read from every other register. -/
theorem readRegister_writeRegister_of_ne {r s : Register} (h : r ≠ s) (v : BitVec 16) :
    readRegister fl inputs (writeRegister fl cfg r v) s = readRegister fl inputs cfg s := by
  cases r with
  | motorCtrl | streamCtrl | saveSettings | systemReboot =>
      simp only [writeRegister]
      split <;> cases s <;> rfl
  | _ => cases s <;> first | rfl | exact absurd rfl h

theorem readAddress_writeAddress_of_ne {a b : BitVec 16} (h : a ≠ b) (v : BitVec 16) :
    readAddress fl inputs (writeAddress fl cfg a v) b = readAddress fl inputs cfg b := by
  unfold readAddress writeAddress
  cases ha : Register.ofAddress a with
  | none => rfl
  | some r =>
      cases hb : Register.ofAddress b with
      | none => rfl
      | some s =>
          exact readRegister_writeRegister_of_ne inputs (Register.ne_of_ofAddress h ha hb) v

/-- Writes to different registers give the same configuration in either order. -/
theorem writeRegister_comm {r s : Register} (h : r ≠ s) (v w : BitVec 16) :
    writeRegister fl (writeRegister fl cfg r v) s w =
      writeRegister fl (writeRegister fl cfg s w) r v := by
  cases r <;> cases s <;>
    first | exact absurd rfl h | rfl | (simp only [writeRegister]; split_ifs <;> rfl)

theorem writeAddress_comm {a b : BitVec 16} (h : a ≠ b) (v w : BitVec 16) :
    writeAddress fl (writeAddress fl cfg a v) b w =
      writeAddress fl (writeAddress fl cfg b w) a v := by
  unfold writeAddress
  cases ha : Register.ofAddress a with
  | none => rfl
  | some r =>
      cases hb : Register.ofAddress b with
      | none => rfl
      | some s => exact writeRegister_comm (Register.ne_of_ofAddress h ha hb) v w

/-- The registers that hold their value. -/
def valueRegisters : List Register :=
  [.motorRpm, .motorAccel, .motorMicrosteps, .uartBaud]

/-- The registers that hold whether their value is positive. -/
def flagRegisters : List Register :=
  [.motorDir, .encoderDir, .autoStream]

/-- A value kept as a tenth comes back. -/
theorem truncToWord_tenth (v : BitVec 16) :
    truncToWord (Binary32.round (Binary32.round (v.toNat / 10) * 10)) = v := by
  have hlt := v.isLt
  rw [Binary32.round_tenth_mul_ten (by omega), truncToWord, truncToNat_natCast,
    BitVec.ofNat_toNat, BitVec.setWidth_eq]

/-- A value kept as its hundredfold comes back. -/
theorem setWidth_hundredfold (v : BitVec 16) :
    (v.setWidth 32 * 100 / 100).setWidth 16 = v := by
  apply BitVec.eq_of_toNat_eq
  have hhundred : (100 : BitVec 32).toNat = 100 := rfl
  rw [BitVec.toNat_setWidth, BitVec.toNat_udiv, toNat_hundredfold, hhundred,
    Nat.mul_div_cancel _ (by decide), Nat.mod_eq_of_lt v.isLt]

/-- A register that holds its value is read back. -/
theorem read_write_value {r : Register} (h : r ∈ valueRegisters) (v : BitVec 16) :
    readRegister Binary32.round inputs (writeRegister Binary32.round cfg r v) r = v := by
  simp only [valueRegisters, List.mem_cons, List.not_mem_nil, or_false] at h
  rcases h with rfl | rfl | rfl | rfl
  · exact truncToWord_tenth v
  · exact truncToWord_tenth v
  · rfl
  · exact setWidth_hundredfold v

/-- A register that holds a flag is read back as one. -/
theorem read_write_flag {r : Register} (h : r ∈ flagRegisters) (v : BitVec 16) :
    readRegister fl inputs (writeRegister fl cfg r v) r = if 0 < v then 1 else 0 := by
  simp only [flagRegisters, List.mem_cons, List.not_mem_nil, or_false] at h
  rcases h with rfl | rfl | rfl
  · simp only [writeRegister, readRegister]
    split <;> rfl
  · simp [writeRegister, readRegister]
  · simp [writeRegister, readRegister]

end

/-! ## Main result -/

section

variable (cfg : ModbusConfig) (inputs : ReadInputs)

/-- The configuration after a segment. -/
def afterSegment (p : Pbuf) : ModbusConfig :=
  (modbusRecvCb Binary32.round (fun _ => inputs) cfg (some p) 0).cfg

/-- A write is read back, as the value or as a flag; it leaves what is read from every
other address; and writes to different addresses commute. -/
theorem registers_independent_cells :
    (∀ r ∈ valueRegisters, ∀ v p q, p.IsRequest fcWriteSingleReg r.address v →
      q.IsRequest fcReadHoldingRegs r.address 1 →
      readBack Binary32.round inputs (afterSegment cfg inputs p) q = v) ∧
    (∀ r ∈ flagRegisters, ∀ v p q, p.IsRequest fcWriteSingleReg r.address v →
      q.IsRequest fcReadHoldingRegs r.address 1 →
      readBack Binary32.round inputs (afterSegment cfg inputs p) q = if 0 < v then 1 else 0) ∧
    (∀ a b v p q, a ≠ b → p.IsRequest fcWriteSingleReg a v →
      q.IsRequest fcReadHoldingRegs b 1 →
      readBack Binary32.round inputs (afterSegment cfg inputs p) q =
        readBack Binary32.round inputs cfg q) ∧
    ∀ a b v w p q, a ≠ b → p.IsRequest fcWriteSingleReg a v →
      q.IsRequest fcWriteSingleReg b w →
      afterSegment (afterSegment cfg inputs p) inputs q =
        afterSegment (afterSegment cfg inputs q) inputs p := by
  refine ⟨fun r hr v p q hp hq => ?_, fun r hr v p q hp hq => ?_,
    fun a b v p q hne hp hq => ?_, fun a b v w p q hne hp hq => ?_⟩
  · rw [readBack_eq hq, afterSegment, recv_write hp, readAddress, writeAddress,
      Register.ofAddress_address]
    exact read_write_value inputs hr v
  · rw [readBack_eq hq, afterSegment, recv_write hp, readAddress, writeAddress,
      Register.ofAddress_address]
    exact read_write_flag inputs hr v
  · rw [readBack_eq hq, readBack_eq hq, afterSegment, recv_write hp]
    exact readAddress_writeAddress_of_ne inputs hne v
  · simp only [afterSegment]
    rw [recv_write hq, recv_write hp, recv_write hp, recv_write hq]
    exact writeAddress_comm hne v w

end

/-- The speed register holds the largest value. -/
theorem registers_independent_cells_max :
    readBack Binary32.round restInputs
      (afterSegment initialConfig restInputs (requestSegment fcWriteSingleReg 202 65535))
      (requestSegment fcReadHoldingRegs 202 1) = 65535 :=
  (registers_independent_cells initialConfig restInputs).1 .motorRpm (by decide) 65535 _ _
    (requestSegment_isRequest fcWriteSingleReg 202 65535)
    (requestSegment_isRequest fcReadHoldingRegs 202 1)

end Modbus
end MDCMotorControl
