import MDCMotorControl.Encoder.Revolutions
import MDCMotorControl.Modbus.BlockReads

/-!
# Cycle time and heartbeat in one answer

The loop of an FC03 answer reads each register in its own iteration, and a zero
pulse between two iterations changes the cycle time and the heartbeat.  The
cycle time has the lower address and is read first.

Main results:

- Theorem `answered_eq`: the value an answer carries for a register is that of
  its own iteration.
- Theorem `cycle_pair_iff`: when the two registers of one answer belong to one
  revolution.
-/

namespace MDCMotorControl
namespace Modbus

open Motor Settings BigEndian Encoder

/-! ## The registers of an answer -/

/-- The value that an answer to a read from `startAddress` carries for a
register. -/
def answered (frame : List Byte) (startAddress : BitVec 16) (r : Register) : BitVec 16 :=
  let i := r.address.toNat - startAddress.toNat
  wordOf (frame.getD (9 + 2 * i) 0) (frame.getD (10 + 2 * i) 0)

section

variable {fl : ℚ → ℚ} {inputs : ℕ → ReadInputs} {cfg : ModbusConfig} {p : Pbuf}

/-- An answer carries each register as its own iteration reads it. -/
theorem answered_eq {startAddress quantity : BitVec 16} {r : Register}
    (hstart : startAddress.toNat ≤ r.address.toNat)
    (hcover : r.address.toNat < startAddress.toNat + quantity.toNat) :
    answered (readResponse fl inputs cfg p startAddress quantity) startAddress r =
      readRegister fl (inputs (r.address.toNat - startAddress.toNat)) cfg r := by
  have haddress : startAddress + BitVec.ofNat 16 (r.address.toNat - startAddress.toNat) =
      r.address := by
    apply BitVec.eq_of_toNat_eq
    have hlt := r.address.isLt
    rw [BitVec.toNat_add, BitVec.toNat_ofNat]
    omega
  have hword := @readResponse_word fl inputs cfg p startAddress quantity
    (r.address.toNat - startAddress.toNat) (by omega)
  rw [haddress, readAddress, Register.ofAddress_address] at hword
  exact hword

end

/-! ## Pulses between the reads -/

/-- Where the zero pulses of a sequence land among the reads of the loop: how
many have been handled when register `i` is read. -/
structure Placement where
  landed : ℕ → ℕ
  mono : Monotone landed

/-- What the loop reads with the pulses so placed.  The values of the other
modules are free to change between the reads as well. -/
def inputsAmong (z : ℕ → ZeroPulse) (place : Placement) (others : ℕ → ReadInputs) (i : ℕ) :
    ReadInputs :=
  { others i with
    cycleTime := appEncoderGetCycleTime (afterPulses z (place.landed i))
    cycleCounter := appEncoderGetCycleCounter (afterPulses z (place.landed i)) }

/-- The last revolution that the first `k` pulses end, in milliseconds and capped;
zero when they end none. -/
def lastRevolutionMs (z : ℕ → ZeroPulse) : ℕ → ℕ
  | k + 2 => min (((z (k + 1)).hiresTimeUs - (z k).hiresTimeUs).toNat / 1000) 65535
  | _ => 0

theorem cycleTime_afterPulses (z : ℕ → ZeroPulse) (k : ℕ) :
    (appEncoderGetCycleTime (afterPulses z k)).toNat = lastRevolutionMs z k := by
  rw [cycleTime_toNat]
  match k with
  | 0 => simp [afterPulses, initialEncoder, lastRevolutionMs]
  | 1 =>
      obtain ⟨_, _, hzero, _⟩ := afterPulses_one z
      rw [hzero]
      rfl
  | k + 2 => rw [(afterPulses_succ_succ z k).1, lastRevolutionMs]

/-- A heartbeat above zero tells the pulses so far. -/
theorem landed_of_counter {z : ℕ → ZeroPulse} {k : ℕ} (hfew : k < 65536)
    (hpos : 0 < appEncoderGetCycleCounter (afterPulses z k)) :
    (appEncoderGetCycleCounter (afterPulses z k)).toNat + 1 = k := by
  cases k with
  | zero => simp [appEncoderGetCycleCounter, afterPulses, initialEncoder] at hpos
  | succ k =>
      rw [cycleCounter_afterPulses]
      omega

section

variable {fl : ℚ → ℚ} {cfg : ModbusConfig} {p : Pbuf}

/-- In an answer that covers both registers and carries a heartbeat above zero,
with fewer than 65536 pulses so far, the cycle time is that of the revolution
that the heartbeat counts exactly when no pulse lands between the two reads or
the revolutions last ended at the two reads took the same milliseconds. -/
theorem cycle_pair_iff {z : ℕ → ZeroPulse} {place : Placement} {others : ℕ → ReadInputs}
    {startAddress quantity : BitVec 16} {frame : List Byte}
    (hlen : mbapHeaderSize ≤ p.payload.length) (hcode : p.data 7 = fcReadHoldingRegs)
    (haddress : startAddress = wordOf (p.data 8) (p.data 9))
    (hquantity : quantity = wordOf (p.data 10) (p.data 11)) (hle : quantity ≤ 20)
    (hstart : startAddress.toNat ≤ Register.cycleTime.address.toNat)
    (hcover : Register.cycleCounter.address.toNat < startAddress.toNat + quantity.toNat)
    (hframe : frame ∈
      (modbusRecvCb fl (inputsAmong z place others) cfg (some p) 0).frames)
    (hfew : place.landed (Register.cycleCounter.address.toNat - startAddress.toNat) < 65536)
    (hpos : 0 < answered frame startAddress .cycleCounter) :
    answered frame startAddress .cycleTime =
        appEncoderGetCycleTime
          (afterPulses z ((answered frame startAddress .cycleCounter).toNat + 1)) ↔
      place.landed (Register.cycleTime.address.toNat - startAddress.toNat) =
          place.landed (Register.cycleCounter.address.toNat - startAddress.toNat) ∨
        lastRevolutionMs z
            (place.landed (Register.cycleTime.address.toNat - startAddress.toNat)) =
          lastRevolutionMs z
            (place.landed (Register.cycleCounter.address.toNat - startAddress.toNat)) := by
  have hneighbours : Register.cycleCounter.address.toNat = Register.cycleTime.address.toNat + 1 :=
    rfl
  have hle' : quantity.toNat ≤ 20 := hle
  have hqpos : 0 < quantity := by
    have hnat : 0 < quantity.toNat := by omega
    exact hnat
  have hresponse : frame =
      readResponse fl (inputsAmong z place others) cfg p startAddress quantity := by
    rw [hquantity] at hqpos hle
    rw [(recv_frame hlen).2, handleFrame_read hcode hqpos hle, ← haddress, ← hquantity] at hframe
    exact List.mem_singleton.mp hframe
  have hcounter : answered frame startAddress .cycleCounter =
      appEncoderGetCycleCounter (afterPulses z
        (place.landed (Register.cycleCounter.address.toNat - startAddress.toNat))) := by
    rw [hresponse, answered_eq (by omega) hcover]
    rfl
  have htime : answered frame startAddress .cycleTime =
      appEncoderGetCycleTime (afterPulses z
        (place.landed (Register.cycleTime.address.toNat - startAddress.toNat))) := by
    rw [hresponse, answered_eq hstart (by omega)]
    rfl
  rw [hcounter] at hpos ⊢
  rw [htime, landed_of_counter hfew hpos, ← BitVec.toNat_inj, cycleTime_afterPulses,
    cycleTime_afterPulses]
  constructor
  · exact .inr
  · rintro (heq | heq)
    · rw [heq]
    · exact heq

end

/-- A request for the four registers from the encoder position, as the GUI polls
them. -/
def pollRequest : Pbuf where
  payload := [0, 1, 0, 0, 0, 6, 1, fcReadHoldingRegs, 0, 100, 0, 4]
  beyond := fun _ => 0
  totLen := 12

/-- Pulses that end a revolution of one second and then one of two. -/
def slowingPulses : ℕ → ZeroPulse
  | 0 => ⟨0, 0⟩
  | 1 => ⟨1000000, 1000⟩
  | _ => ⟨3000000, 3000⟩

/-- Two pulses before the first register is read and the third before register
`i`. -/
def thirdBefore (i : ℕ) : Placement where
  landed := fun k => if k < i then 2 else 3
  mono := by
    intro a b hab
    simp only
    split <;> split <;> omega

/-- The answer to a poll during which the third pulse lands before register `i`
of the map is read. -/
def pollAnswer (i : ℕ) : List Byte :=
  ((modbusRecvCb id (inputsAmong slowingPulses (thirdBefore i) fun _ => restInputs)
    initialConfig (some pollRequest) 0).frames).headD []

/-- With the third pulse before both registers are read, the pair is that of the
second revolution. -/
theorem cycle_pair_iff_poll :
    answered (pollAnswer 1) 100 .cycleTime =
        appEncoderGetCycleTime (afterPulses slowingPulses
          ((answered (pollAnswer 1) 100 .cycleCounter).toNat + 1)) ↔
      (thirdBefore 1).landed 2 = (thirdBefore 1).landed 3 ∨
        lastRevolutionMs slowingPulses ((thirdBefore 1).landed 2) =
          lastRevolutionMs slowingPulses ((thirdBefore 1).landed 3) :=
  @cycle_pair_iff id initialConfig pollRequest slowingPulses (thirdBefore 1)
    (fun _ => restInputs) 100 4 (pollAnswer 1) (by decide) (by decide) (by decide) (by decide)
    (by decide) (by decide) (by decide) (by decide +kernel) (by decide) (by decide +kernel)

/-- With the third pulse between the two reads, the answer pairs the one second
of the first revolution with heartbeat 2. -/
theorem cycle_pair_torn :
    answered (pollAnswer 3) 100 .cycleCounter = 2 ∧
      answered (pollAnswer 3) 100 .cycleTime = 1000 ∧
      appEncoderGetCycleCounter (afterPulses slowingPulses 3) = 2 ∧
      appEncoderGetCycleTime (afterPulses slowingPulses 3) = 2000 := by
  decide +kernel

end Modbus
end MDCMotorControl
