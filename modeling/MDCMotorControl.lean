import MDCMotorControl.Encoder.RevolutionTimers
import MDCMotorControl.Encoder.Revolutions
import MDCMotorControl.Ethernet.LinkState
import MDCMotorControl.Ethernet.ReceivePool
import MDCMotorControl.Ethernet.Reception
import MDCMotorControl.Firmware.Arbitration
import MDCMotorControl.Firmware.BaudRates
import MDCMotorControl.Firmware.CallOrder
import MDCMotorControl.Firmware.MainLoop
import MDCMotorControl.Firmware.MotionInProgress
import MDCMotorControl.Firmware.MotionView
import MDCMotorControl.Firmware.NetworkSettings
import MDCMotorControl.Firmware.Peripherals
import MDCMotorControl.Firmware.PulseEnd
import MDCMotorControl.Firmware.RampBounds
import MDCMotorControl.Firmware.ReadAndApply
import MDCMotorControl.Firmware.RunRequest
import MDCMotorControl.Firmware.SaveAndReboot
import MDCMotorControl.Firmware.SavedRuns
import MDCMotorControl.Firmware.StateLamp
import MDCMotorControl.Firmware.StopTime
import MDCMotorControl.Firmware.UnsolicitedStart
import MDCMotorControl.Library.BigEndian
import MDCMotorControl.Library.Binary32
import MDCMotorControl.Library.Binary32Rounding
import MDCMotorControl.Library.BoundedResponse
import MDCMotorControl.Library.CrcPolynomial
import MDCMotorControl.Library.CrcRegister
import MDCMotorControl.Library.DecimalText
import MDCMotorControl.Library.Executions
import MDCMotorControl.Library.FlashSector
import MDCMotorControl.Library.InterruptibleCode
import MDCMotorControl.Library.LinkedCells
import MDCMotorControl.Library.Monitor
import MDCMotorControl.Library.PeriodicTask
import MDCMotorControl.Library.PrefixCode
import MDCMotorControl.Library.ProgramPoints
import MDCMotorControl.Library.ReferenceCounts
import MDCMotorControl.Library.RoundedAccumulation
import MDCMotorControl.Library.SignificantBits
import MDCMotorControl.Library.StableLevel
import MDCMotorControl.Library.StepRelations
import MDCMotorControl.Modbus.BlockReads
import MDCMotorControl.Modbus.CycleRegisters
import MDCMotorControl.Modbus.GuiParameters
import MDCMotorControl.Modbus.GuiPolling
import MDCMotorControl.Modbus.PayloadAccess
import MDCMotorControl.Modbus.RegisterCells
import MDCMotorControl.Modbus.RegisterMap
import MDCMotorControl.Modbus.Segmentation
import MDCMotorControl.Modbus.Server
import MDCMotorControl.Motor.CruiseSpeed
import MDCMotorControl.Motor.DriveCode
import MDCMotorControl.Motor.Kinematics
import MDCMotorControl.Motor.ProfileSoundness
import MDCMotorControl.Motor.RampPrecision
import MDCMotorControl.Motor.RampShape
import MDCMotorControl.Motor.RampTicks
import MDCMotorControl.Motor.StartPoints
import MDCMotorControl.Motor.StepRate
import MDCMotorControl.Panel.Blinking
import MDCMotorControl.Panel.Debouncing
import MDCMotorControl.Panel.Lamp
import MDCMotorControl.Panel.Switch
import MDCMotorControl.Settings.Corruption
import MDCMotorControl.Settings.DeviceLife
import MDCMotorControl.Settings.PowerLoss
import MDCMotorControl.Settings.Record
import MDCMotorControl.Telemetry.Checksum
import MDCMotorControl.Telemetry.FramePreemption
import MDCMotorControl.Telemetry.HostDecoder
import MDCMotorControl.Telemetry.Link
import MDCMotorControl.Telemetry.Packets
import MDCMotorControl.Telemetry.Requests
import MDCMotorControl.Telemetry.Resynchronisation
import MDCMotorControl.Telemetry.StreamFreshness
import MDCMotorControl.Telemetry.StreamToHost
import MDCMotorControl.Telemetry.Uart
