import MDCMotorControl.Library.BigEndian
import MDCMotorControl.Library.CrcRegister

/-!
# Telemetry packets

The two packets of `app_telemetry.c` and their checksum.  Both are packed
structures of a little-endian processor; their position field is byte-swapped
before it is stored, and so leaves the UART most significant byte first.

Main results:

- Theorems `bytes_pack` of both packets: the bytes that leave the UART.
- Theorem `streamedPosition_pack`: a receiver reads the position back.
-/

namespace MDCMotorControl
namespace Telemetry

open BigEndian

/-- `SYNC_BYTE`. -/
def syncByte : Byte := 0x55

/-- `REQ_POSITION`, the character `P`. -/
def reqPosition : Byte := 0x50

/-- `crc8_atm`. -/
def crc8Atm (data : List Byte) : Byte :=
  CrcRegister.digest 0x07 0x00 data

/-- `__builtin_bswap16`. -/
def bswap16 (v : BitVec 16) : BitVec 16 :=
  wordOf (loByte v) (hiByte v)

/-- A 16-bit field in memory. -/
def fieldBytes (v : BitVec 16) : List Byte :=
  [loByte v, hiByte v]

theorem fieldBytes_bswap16 (v : BitVec 16) : fieldBytes (bswap16 v) = [hiByte v, loByte v] := by
  simp [fieldBytes, bswap16]

/-! ## The response packet -/

/-- `ResponsePacket_t`. -/
structure ResponsePacket where
  sync : Byte
  rawPosition : BitVec 16
  motorState : Byte
  crc : Byte
deriving DecidableEq

namespace ResponsePacket

/-- The three bytes under the checksum. -/
def checked (p : ResponsePacket) : List Byte :=
  fieldBytes p.rawPosition ++ [p.motorState]

/-- The packet in memory. -/
def bytes (p : ResponsePacket) : List Byte :=
  [p.sync] ++ p.checked ++ [p.crc]

/-- The packet that `App_Telemetry_OnByteReceived` fills in. -/
def pack (position : BitVec 16) (motorState : Byte) : ResponsePacket where
  sync := syncByte
  rawPosition := bswap16 position
  motorState := motorState
  crc := crc8Atm (fieldBytes (bswap16 position) ++ [motorState])

theorem bytes_pack (position : BitVec 16) (motorState : Byte) :
    (pack position motorState).bytes =
      [syncByte, hiByte position, loByte position, motorState,
        crc8Atm [hiByte position, loByte position, motorState]] := by
  simp [bytes, checked, pack, fieldBytes_bswap16]

end ResponsePacket

/-! ## The stream packet -/

/-- `FastStreamPacket_t`. -/
structure FastStreamPacket where
  sync : Byte
  rawPosition : BitVec 16
  crc : Byte
deriving DecidableEq

namespace FastStreamPacket

/-- The packet in memory. -/
def bytes (p : FastStreamPacket) : List Byte :=
  [p.sync] ++ fieldBytes p.rawPosition ++ [p.crc]

/-- The packet that `App_Telemetry_OnEncoderStep` fills in. -/
def pack (currentPosition : BitVec 16) : FastStreamPacket where
  sync := syncByte
  rawPosition := bswap16 currentPosition
  crc := crc8Atm (fieldBytes (bswap16 currentPosition))

theorem length_bytes (p : FastStreamPacket) : p.bytes.length = 4 := rfl

theorem bytes_pack (position : BitVec 16) :
    (pack position).bytes =
      [syncByte, hiByte position, loByte position,
        crc8Atm [hiByte position, loByte position]] := by
  simp [bytes, pack, fieldBytes_bswap16]

end FastStreamPacket

/-- The position that the receiver of the stream reads from a packet; it takes
the packet only with the right first byte and the right checksum. -/
def streamedPosition : List Byte → Option (BitVec 16)
  | [sync, hi, lo, crc] =>
      if sync = syncByte ∧ crc = crc8Atm [hi, lo] then some (wordOf hi lo) else none
  | _ => none

/-- The receiver reads back the position that was packed. -/
theorem streamedPosition_pack (position : BitVec 16) :
    streamedPosition (FastStreamPacket.pack position).bytes = some position := by
  simp [FastStreamPacket.bytes_pack, streamedPosition]

end Telemetry
end MDCMotorControl
