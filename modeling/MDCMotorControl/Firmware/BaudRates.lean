import MDCMotorControl.Firmware.SavedRuns
import MDCMotorControl.Modbus.BlockReads

/-!
# Baud rates and the divisor of the UART

A write of the baud rate register reaches the divisor of the UART in two ways: the
command of the pass sets it, and the boot sets it from the saved record.  No stage of
either checks the value.

Main results:

- Theorem `uartBrrSampling16_eq`: the divisor in closed form.
- Theorem `baud_divisor_iff`: which values give a divisor that fits the register.
-/

namespace MDCMotorControl
namespace Firmware

open Interruptible Motor Settings Modbus Panel FlashSector

/-! ## The divisor -/

/-- `UART_DIV_SAMPLING16`: a hundred times the clock cycles in a sixteenth of a bit. -/
def uartDivSampling16 (pclk baud : ℕ) : ℕ :=
  pclk * 25 / (4 * baud)

/-- `UART_DIVMANT_SAMPLING16`. -/
def uartDivMantSampling16 (pclk baud : ℕ) : ℕ :=
  uartDivSampling16 pclk baud / 100

/-- `UART_DIVFRAQ_SAMPLING16`. -/
def uartDivFraqSampling16 (pclk baud : ℕ) : ℕ :=
  ((uartDivSampling16 pclk baud - uartDivMantSampling16 pclk baud * 100) * 16 + 50) / 100

/-- `UART_BRR_SAMPLING16`; none if it divides by zero. -/
def uartBrrSampling16 (pclk baud : ℕ) : Option ℕ :=
  if baud = 0 then none
  else some (uartDivMantSampling16 pclk baud * 16 +
    (uartDivFraqSampling16 pclk baud &&& 0xF0) + (uartDivFraqSampling16 pclk baud &&& 0x0F))

/-- `HAL_RCC_GetPCLK2Freq`. -/
def halRccGetPclk2Freq : ℕ := 84000000

/-- The divisor that `HAL_Telemetry_SetBaudRate` writes to the register, and that
`HAL_UART_Init` does for the rate of `HAL_Telemetry_Init`. -/
def halTelemetryDivisor (newBaudRate : BitVec 32) : Option ℕ :=
  uartBrrSampling16 halRccGetPclk2Freq newBaudRate.toNat

/-- The rate has a divisor, and it is not zero and fits the 16 bits of the register. -/
def DivisorFits (newBaudRate : BitVec 32) : Prop :=
  ∃ brr, halTelemetryDivisor newBaudRate = some brr ∧ 0 < brr ∧ brr < 2 ^ 16

/-- The fraction is at most sixteen sixteenths, so its two parts add up to it. -/
theorem uartDivFraqSampling16_split (pclk baud : ℕ) :
    (uartDivFraqSampling16 pclk baud &&& 0xF0) + (uartDivFraqSampling16 pclk baud &&& 0x0F) =
      uartDivFraqSampling16 pclk baud := by
  have hlt : uartDivFraqSampling16 pclk baud < 17 := by
    rw [uartDivFraqSampling16, uartDivMantSampling16]
    omega
  have hsplit : ∀ f < 17, (f &&& 0xF0) + (f &&& 0x0F) = f := by decide
  exact hsplit _ hlt

/-- The divisor counts sixteenths of the quotient, rounded to the nearest. -/
theorem uartBrrSampling16_eq {pclk baud : ℕ} (h : baud ≠ 0) :
    uartBrrSampling16 pclk baud = some ((uartDivSampling16 pclk baud * 16 + 50) / 100) := by
  rw [uartBrrSampling16, if_neg h, Nat.add_assoc, uartDivFraqSampling16_split,
    uartDivFraqSampling16, uartDivMantSampling16]
  congr 1
  omega

/-- The divisor of a rate in hundreds: below 1300 bps it is too large. -/
theorem divisorFits_hundreds (v : BitVec 16) :
    DivisorFits (v.setWidth 32 * 100) ↔ 13 ≤ v.toNat := by
  have hv := v.isLt
  rw [DivisorFits, halTelemetryDivisor, toNat_hundredfold]
  by_cases hzero : v.toNat = 0
  · simp [uartBrrSampling16, hzero]
  · have hdiv : uartDivSampling16 halRccGetPclk2Freq (v.toNat * 100) = 5250000 / v.toNat := by
      have hfactor : 4 * (v.toNat * 100) = 400 * v.toNat := by ring
      rw [uartDivSampling16, halRccGetPclk2Freq, hfactor, ← Nat.div_div_eq_div_mul]
    rw [uartBrrSampling16_eq (by omega), hdiv]
    simp only [Option.some.injEq, exists_eq_left']
    constructor
    · rintro ⟨_, hlt⟩
      by_contra hsmall
      have hquotient : 5250000 / 12 ≤ 5250000 / v.toNat :=
        Nat.div_le_div_left (by omega) (by omega)
      omega
    · intro hlarge
      have hupper : 5250000 / v.toNat ≤ 5250000 / 13 := Nat.div_le_div_left hlarge (by decide)
      have hlower : 5250000 / 65535 ≤ 5250000 / v.toNat :=
        Nat.div_le_div_left (by omega) (by omega)
      omega

/-! ## Main result -/

/-- Only a write of the baud rate register changes the baud rate. -/
theorem uartBaudRate_part {r : Register} (hr : r ∉ [Register.uartBaud]) (mb : ModbusConfig)
    (v : BitVec 16) :
    (parametersOf (writeRegister Binary32.round mb r v)).uartBaudRate =
      (parametersOf mb).uartBaudRate := by
  cases r with
  | uartBaud => exact absurd List.mem_cons_self hr
  | motorCtrl | streamCtrl | saveSettings | systemReboot =>
      simp only [writeRegister]
      split <;> rfl
  | _ => rfl

/-- The last baud rate of a run, once the main loop has applied it and again after a
save and a restart, has a divisor that fits the register exactly if it is at least
1300 bps. -/
theorem baud_divisor_iff {crc : List (BitVec 32) → BitVec 32} {s : PassRun crc} {p : Pbuf}
    {v : BitVec 16} {ctl : Control} (hwrite : LastWrite [.uartBaud] p s ctl)
    (hp : p.IsRequest fcWriteSingleReg Register.uartBaud.address v) :
    (¬ s.Cut → (DivisorFits s.last.uartBaudRate ↔ 13 ≤ v.toNat)) ∧
    (s.Saves → ∀ pin repair restart, (∀ e ∈ restart, e.isEnter = false) →
      9 ≤ programSteps restart →
      (DivisorFits (s.reboot pin repair restart).state.ctl.uartBaudRate ↔ 13 ≤ v.toNat)) := by
  have hbatch : s.batch.uartBaudRate = v.setWidth 32 * 100 := by
    have hpart := hwrite.batch_part fun r hr mb w => uartBaudRate_part hr mb w
    rw [hp.command] at hpart
    exact hpart
  refine ⟨fun huncut => ?_, fun hsaves pin repair restart hrestart hsteps => ?_⟩
  · have hlast : s.last.mb.uartBaudRate = s.batch.uartBaudRate :=
      congrArg Parameters.uartBaudRate s.last_parameters
    rw [s.last_uartBaudRate huncut, hlast, hbatch]
    exact divisorFits_hundreds v
  · obtain ⟨_, _, _, hrate⟩ := PassRun.reboot_of_saves hsaves hrestart hsteps
    rw [hrate, hbatch]
    exact divisorFits_hundreds v

/-- A rate of 115200 bps, written and saved in the first pass. -/
def usualRate : PassRun fun _ => 0 :=
  firstPass [(.uartBaud, 1152), (.saveSettings, 1)] (by decide +kernel)

/-- It has a divisor at once and after a restart. -/
theorem baud_divisor_iff_usual :
    DivisorFits usualRate.last.uartBaudRate ∧
      DivisorFits (usualRate.reboot true flashCompletes
        (List.replicate 9 .main)).state.ctl.uartBaudRate := by
  have hwrite : LastWrite [.uartBaud] (writeSegment .uartBaud 1152) usualRate
      (afterDeliveries usualRate.old []) :=
    @LastWrite.inLastPass _ _ _ usualRate [] [(writeSegment .saveSettings 1, fun _ => restInputs)]
      (fun _ => restInputs) rfl (by simp [Avoids, writeSegment_command])
  have hsaves : usualRate.Saves := ⟨by decide +kernel, by decide +kernel⟩
  obtain ⟨hrun, hboot⟩ := baud_divisor_iff hwrite (writeSegment_isRequest .uartBaud 1152)
  exact ⟨(hrun hsaves.not_cut).mpr (by decide),
    (hboot hsaves true flashCompletes _ (by decide) (by decide)).mpr (by decide)⟩

/-- A rate of zero divides by zero, and 1200 bps, the rate of twelve hundreds, does not
fit, both at once and after a restart. -/
theorem lowest_rates_fail :
    let saved : BitVec 16 → Config World := fun v =>
      runFrom Binary32.round (fun _ => 0) (emptyFlash false)
        (bootAndPasses [writes [(.uartBaud, v), (.saveSettings, 1)]])
    let booted : BitVec 16 → Config World := fun v =>
      runFrom Binary32.round (fun _ => 0) ⟨(saved v).state.ctl.storage.flash, true, flashCompletes⟩
        (List.replicate 9 .main)
    halTelemetryDivisor (saved 0).state.ctl.uartBaudRate = none ∧
      halTelemetryDivisor (booted 0).state.ctl.uartBaudRate = none ∧
      halTelemetryDivisor (saved 12).state.ctl.uartBaudRate = some 70000 ∧
      halTelemetryDivisor (booted 12).state.ctl.uartBaudRate = some 70000 ∧ 2 ^ 16 < 70000 := by
  decide +kernel

end Firmware
end MDCMotorControl
