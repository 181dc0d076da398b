import MDCMotorControl.Library.BigEndian
import MDCMotorControl.Motor.Kinematics
import MDCMotorControl.Settings.Record

/-!
# The Modbus register map

The configuration structure that the Modbus server shares with the main loop,
the registers of the map with their addresses, and the two switches of
`app_modbus.c` that read and write them.

Main results:

- Theorems `Register.ofAddress_address` and `Register.ofAddress_eq_some`: a
  register and its address determine each other.
-/

namespace MDCMotorControl
namespace Modbus

open Motor Settings BigEndian

/-! ## The shared configuration -/

/-- `ModbusConfig_t`. -/
structure ModbusConfig where
  pendingMotorStart : Bool
  pendingMotorStop : Bool
  pendingStreamStart : Bool
  pendingStreamStop : Bool
  pendingEncoderDir : Bool
  pendingBaudChange : Bool
  pendingSaveCmd : Bool
  pendingRebootCmd : Bool
  encoderReversed : Bool
  streamActive : Bool
  autoStartStream : Bool
  motorDirection : BitVec 8
  microsteps : BitVec 16
  uartBaudRate : BitVec 32
  ipAddress : Octets
  netmask : Octets
  gateway : Octets
  targetRPM : ℚ
  accelTimeSec : ℚ
deriving DecidableEq

/-- The static initial value of `ModbusCfg`. -/
def initialConfig : ModbusConfig where
  pendingMotorStart := false
  pendingMotorStop := false
  pendingStreamStart := false
  pendingStreamStop := false
  pendingEncoderDir := false
  pendingBaudChange := false
  pendingSaveCmd := false
  pendingRebootCmd := false
  encoderReversed := false
  streamActive := false
  autoStartStream := false
  motorDirection := 0
  microsteps := 5000
  uartBaudRate := 230400
  ipAddress := ⟨192, 168, 1, 151⟩
  netmask := ⟨255, 255, 255, 0⟩
  gateway := ⟨192, 168, 1, 1⟩
  targetRPM := 10
  accelTimeSec := 2

/-! ## Registers -/

/-- The registers of `app_modbus.h`. -/
inductive Register where
  | encoderPos
  | motorState
  | cycleTime
  | cycleCounter
  | motorCtrl
  | motorDir
  | motorRpm
  | motorAccel
  | motorMicrosteps
  | streamCtrl
  | encoderDir
  | uartBaud
  | autoStream
  | ipHigh
  | ipLow
  | netmaskHigh
  | netmaskLow
  | gatewayHigh
  | gatewayLow
  | saveSettings
  | systemReboot
deriving DecidableEq, Repr

namespace Register

/-- The address of a register, its `REG_` constant. -/
def address : Register → BitVec 16
  | encoderPos => 100
  | motorState => 101
  | cycleTime => 102
  | cycleCounter => 103
  | motorCtrl => 200
  | motorDir => 201
  | motorRpm => 202
  | motorAccel => 203
  | motorMicrosteps => 204
  | streamCtrl => 300
  | encoderDir => 301
  | uartBaud => 302
  | autoStream => 303
  | ipHigh => 310
  | ipLow => 311
  | netmaskHigh => 312
  | netmaskLow => 313
  | gatewayHigh => 314
  | gatewayLow => 315
  | saveSettings => 400
  | systemReboot => 401

/-- All registers, in address order. -/
def all : List Register :=
  [encoderPos, motorState, cycleTime, cycleCounter, motorCtrl, motorDir, motorRpm, motorAccel,
    motorMicrosteps, streamCtrl, encoderDir, uartBaud, autoStream, ipHigh, ipLow, netmaskHigh,
    netmaskLow, gatewayHigh, gatewayLow, saveSettings, systemReboot]

/-- The register at an address, if the address is mapped. -/
def ofAddress (a : BitVec 16) : Option Register :=
  all.find? fun r => r.address = a

@[simp] theorem ofAddress_address (r : Register) : ofAddress r.address = some r := by
  cases r <;> decide

theorem ofAddress_eq_some {a : BitVec 16} {r : Register} :
    ofAddress a = some r ↔ a = r.address := by
  constructor
  · intro h
    have haddress : r.address = a := by simpa using List.find?_some h
    exact haddress.symm
  · rintro rfl
    exact ofAddress_address r

/-- Different mapped addresses are those of different registers. -/
theorem ne_of_ofAddress {a b : BitVec 16} {r s : Register} (h : a ≠ b)
    (ha : ofAddress a = some r) (hb : ofAddress b = some s) : r ≠ s := by
  rintro rfl
  rw [ofAddress_eq_some] at ha hb
  exact h (ha.trans hb.symm)

end Register

/-! ## Reading -/

/-- What a read of the registers takes from the other modules. -/
structure ReadInputs where
  position : BitVec 16
  motorState : MotorState
  cycleTime : BitVec 16
  cycleCounter : BitVec 16
  settings : SystemSettings

/-- The conversion of a scaled float to a 16-bit register value. -/
def truncToWord (q : ℚ) : BitVec 16 :=
  BitVec.ofNat 16 (truncToNat q)

section

variable (fl : ℚ → ℚ)

/-- The switch of the FC03 loop on a mapped register.  The network registers are
read from the active Flash settings. -/
def readRegister (inputs : ReadInputs) (cfg : ModbusConfig) : Register → BitVec 16
  | .encoderPos => inputs.position
  | .motorState => inputs.motorState.code
  | .motorCtrl => if inputs.motorState = .stopped then 0 else 1
  | .cycleTime => inputs.cycleTime
  | .cycleCounter => inputs.cycleCounter
  | .motorDir => cfg.motorDirection.setWidth 16
  | .motorRpm => truncToWord (fl (cfg.targetRPM * 10))
  | .motorAccel => truncToWord (fl (cfg.accelTimeSec * 10))
  | .motorMicrosteps => cfg.microsteps
  | .streamCtrl => if cfg.streamActive then 1 else 0
  | .encoderDir => if cfg.encoderReversed then 1 else 0
  | .uartBaud => (cfg.uartBaudRate / 100).setWidth 16
  | .autoStream => if cfg.autoStartStream then 1 else 0
  | .ipHigh => wordOf inputs.settings.ipAddress.o0 inputs.settings.ipAddress.o1
  | .ipLow => wordOf inputs.settings.ipAddress.o2 inputs.settings.ipAddress.o3
  | .netmaskHigh => wordOf inputs.settings.netmask.o0 inputs.settings.netmask.o1
  | .netmaskLow => wordOf inputs.settings.netmask.o2 inputs.settings.netmask.o3
  | .gatewayHigh => wordOf inputs.settings.gateway.o0 inputs.settings.gateway.o1
  | .gatewayLow => wordOf inputs.settings.gateway.o2 inputs.settings.gateway.o3
  | .saveSettings => 0
  | .systemReboot => 0

/-- A read of any address; unmapped addresses read as zero. -/
def readAddress (inputs : ReadInputs) (cfg : ModbusConfig) (a : BitVec 16) : BitVec 16 :=
  match Register.ofAddress a with
  | some r => readRegister fl inputs cfg r
  | none => 0

/-! ## Writing -/

/-- The switch of the FC06 branch on a mapped register.  The other registers
have no case there. -/
def writeRegister (cfg : ModbusConfig) (r : Register) (v : BitVec 16) : ModbusConfig :=
  match r with
  | .motorCtrl =>
      if v = 1 then { cfg with pendingMotorStart := true }
      else { cfg with pendingMotorStop := true }
  | .motorDir => { cfg with motorDirection := if 0 < v then 1 else 0 }
  | .motorRpm => { cfg with targetRPM := fl (v.toNat / 10) }
  | .motorAccel => { cfg with accelTimeSec := fl (v.toNat / 10) }
  | .motorMicrosteps => { cfg with microsteps := v }
  | .streamCtrl =>
      if v = 1 then { cfg with pendingStreamStart := true }
      else { cfg with pendingStreamStop := true }
  | .encoderDir => { cfg with encoderReversed := 0 < v, pendingEncoderDir := true }
  | .uartBaud =>
      { cfg with uartBaudRate := v.setWidth 32 * 100, pendingBaudChange := true }
  | .autoStream => { cfg with autoStartStream := 0 < v }
  | .saveSettings => if v = 1 then { cfg with pendingSaveCmd := true } else cfg
  | .ipHigh =>
      { cfg with ipAddress := { cfg.ipAddress with o0 := hiByte v, o1 := loByte v } }
  | .ipLow =>
      { cfg with ipAddress := { cfg.ipAddress with o2 := hiByte v, o3 := loByte v } }
  | .systemReboot => if v = 1 then { cfg with pendingRebootCmd := true } else cfg
  | _ => cfg

/-- A write to any address; a write to an unmapped one has no effect. -/
def writeAddress (cfg : ModbusConfig) (a v : BitVec 16) : ModbusConfig :=
  match Register.ofAddress a with
  | some r => writeRegister fl cfg r v
  | none => cfg

end

/-- The rate written to `REG_UART_BAUD` in hundreds is held without overflow. -/
theorem toNat_hundredfold (v : BitVec 16) : (v.setWidth 32 * 100).toNat = v.toNat * 100 := by
  have hlt := v.isLt
  have hhundred : (100 : BitVec 32).toNat = 100 := rfl
  have hwide : v.toNat % 2 ^ 32 = v.toNat := Nat.mod_eq_of_lt (by omega)
  rw [BitVec.toNat_mul, BitVec.toNat_setWidth, hhundred, hwide, Nat.mod_eq_of_lt (by omega)]

end Modbus
end MDCMotorControl
