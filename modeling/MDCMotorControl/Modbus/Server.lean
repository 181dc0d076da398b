import MDCMotorControl.Modbus.RegisterMap

/-!
# The Modbus TCP receive handler

`modbus_recv_cb` is called by LwIP with each received segment.  It looks at one
frame at fixed offsets from the start of the segment and keeps nothing between
two calls.

The guard compares the segment with the seven-byte MBAP header, while the
function code and the body lie behind it.  Reads past the end of a short segment
are modelled by what the memory behind it happens to hold.

Main results:

- Theorems `recv_short` and `recv_frame`: a segment shorter than the header has
  no effect, any other is dispatched on the frame at its start.
- Theorems `handleFrame_read` and `handleFrame_write`: reads are answered and
  change nothing, writes are executed and echoed.
- Theorem `recv_cfg`: the configuration changes by the command of the segment.
- Theorem `length_readResponse`: the size of an answer.
-/

namespace MDCMotorControl
namespace Modbus

open Motor Settings BigEndian

/-! ## Segments and calls into LwIP -/

/-- A received segment: the `len` bytes of its first buffer, what the memory
behind them holds, and the length of the whole chain. -/
structure Pbuf where
  payload : List Byte
  beyond : ℕ → Byte
  totLen : ℕ

/-- The payload as the handler indexes it. -/
def Pbuf.data (p : Pbuf) (i : ℕ) : Byte :=
  if h : i < p.payload.length then p.payload[i] else p.beyond i

theorem Pbuf.data_of_lt {p : Pbuf} {i : ℕ} (h : i < p.payload.length) :
    p.data i = p.payload[i] :=
  dif_pos h

/-- Calls of the handler into LwIP. -/
inductive LwipCall where
  | recved (length : ℕ)
  | write (bytes : List Byte)
  | output
  | close
  | free
deriving DecidableEq

/-- What one call of the handler does: the configuration it leaves, its calls
into LwIP in order, and its return value. -/
structure RecvResult where
  cfg : ModbusConfig
  calls : List LwipCall
  ret : Int

/-- The frame handed to `tcp_write`. -/
def LwipCall.written : LwipCall → Option (List Byte)
  | write bytes => some bytes
  | _ => none

/-- The frames one call of the handler hands to `tcp_write`. -/
def RecvResult.frames (r : RecvResult) : List (List Byte) :=
  r.calls.filterMap LwipCall.written

/-! ## The handler -/

/-- `MBAP_HEADER_SIZE`. -/
def mbapHeaderSize : ℕ := 7

/-- `FC_READ_HOLDING_REGS`. -/
def fcReadHoldingRegs : Byte := 0x03

/-- `FC_WRITE_SINGLE_REG`. -/
def fcWriteSingleReg : Byte := 0x06

section

variable (fl : ℚ → ℚ)

/-- The register values of an FC03 answer.  The loop reads register `i` in its
own iteration, from the inputs at that time. -/
def registerBytes (inputs : ℕ → ReadInputs) (cfg : ModbusConfig)
    (startAddress : BitVec 16) (quantity : ℕ) : List Byte :=
  (List.range quantity).flatMap fun i =>
    let val := readAddress fl (inputs i) cfg (startAddress + BitVec.ofNat 16 i)
    [hiByte val, loByte val]

/-- An FC03 answer: the first six bytes of the request with the length field
rewritten, unit, function code, byte count and register values. -/
def readResponse (inputs : ℕ → ReadInputs) (cfg : ModbusConfig) (p : Pbuf)
    (startAddress quantity : BitVec 16) : List Byte :=
  let byteCount : Byte := BitVec.ofNat 8 (quantity.toNat * 2)
  let length : BitVec 16 := 3 + byteCount.setWidth 16
  let header := ((List.range 6).map p.data).set 4 (hiByte length) |>.set 5 (loByte length)
  header ++ [p.data 6, p.data 7, byteCount] ++
    registerBytes fl inputs cfg startAddress quantity.toNat

/-- The dispatch on the function code: the configuration afterwards and the
frame to send, if any. -/
def handleFrame (inputs : ℕ → ReadInputs) (cfg : ModbusConfig) (p : Pbuf) :
    ModbusConfig × Option (List Byte) :=
  if p.data 7 = fcReadHoldingRegs then
    let quantity := wordOf (p.data 10) (p.data 11)
    if 0 < quantity ∧ quantity ≤ 20 then
      (cfg, some (readResponse fl inputs cfg p (wordOf (p.data 8) (p.data 9)) quantity))
    else (cfg, none)
  else if p.data 7 = fcWriteSingleReg then
    -- the echo is always twelve bytes, whatever the segment holds
    (writeAddress fl cfg (wordOf (p.data 8) (p.data 9)) (wordOf (p.data 10) (p.data 11)),
      some ((List.range 12).map p.data))
  else (cfg, none)

/-- `modbus_recv_cb`.  A missing buffer is a closed connection. -/
def modbusRecvCb (inputs : ℕ → ReadInputs) (cfg : ModbusConfig) (p : Option Pbuf)
    (err : Int) : RecvResult :=
  match p with
  | none => ⟨cfg, [.close], 0⟩
  | some p =>
      if err ≠ 0 then ⟨cfg, [.free], err⟩
      else if mbapHeaderSize ≤ p.payload.length then
        let (cfg', frame) := handleFrame fl inputs cfg p
        ⟨cfg', [.recved p.totLen] ++ (frame.map LwipCall.write).toList ++ [.output, .free], 0⟩
      else ⟨cfg, [.recved p.totLen, .free], 0⟩

/-! ## What one call does -/

variable {fl} {inputs : ℕ → ReadInputs} {cfg : ModbusConfig} {p : Pbuf}

/-- A segment shorter than the header is consumed without effect. -/
theorem recv_short (h : ¬ mbapHeaderSize ≤ p.payload.length) :
    (modbusRecvCb fl inputs cfg (some p) 0).cfg = cfg ∧
    (modbusRecvCb fl inputs cfg (some p) 0).frames = [] := by
  simp [modbusRecvCb, h, RecvResult.frames, LwipCall.written]

/-- On any other segment the handler acts on the frame at its start. -/
theorem recv_frame (h : mbapHeaderSize ≤ p.payload.length) :
    (modbusRecvCb fl inputs cfg (some p) 0).cfg = (handleFrame fl inputs cfg p).1 ∧
    (modbusRecvCb fl inputs cfg (some p) 0).frames =
      (handleFrame fl inputs cfg p).2.toList := by
  simp only [modbusRecvCb, ne_eq, not_true_eq_false, if_false, if_pos h, RecvResult.frames]
  refine ⟨trivial, ?_⟩
  cases (handleFrame fl inputs cfg p).2 with
  | none => rfl
  | some frame => rfl

/-- A read frame with an admissible quantity is answered and changes nothing. -/
theorem handleFrame_read (hcode : p.data 7 = fcReadHoldingRegs)
    (hpos : 0 < wordOf (p.data 10) (p.data 11)) (hle : wordOf (p.data 10) (p.data 11) ≤ 20) :
    handleFrame fl inputs cfg p =
      (cfg, some (readResponse fl inputs cfg p (wordOf (p.data 8) (p.data 9))
        (wordOf (p.data 10) (p.data 11)))) := by
  simp only [handleFrame, if_pos hcode, if_pos (And.intro hpos hle)]

/-- A write frame is executed and echoed. -/
theorem handleFrame_write (hcode : p.data 7 = fcWriteSingleReg) :
    handleFrame fl inputs cfg p =
      (writeAddress fl cfg (wordOf (p.data 8) (p.data 9)) (wordOf (p.data 10) (p.data 11)),
        some ((List.range 12).map p.data)) := by
  have hne : p.data 7 ≠ fcReadHoldingRegs := by
    rw [hcode]
    decide
  simp only [handleFrame, if_neg hne, if_pos hcode]

/-! ## The command of a segment -/

/-- The register write that the handler finds in a segment, if any. -/
def Pbuf.command (p : Pbuf) : Option (Register × BitVec 16) :=
  if mbapHeaderSize ≤ p.payload.length ∧ p.data 7 = fcWriteSingleReg then
    (Register.ofAddress (wordOf (p.data 8) (p.data 9))).map fun r =>
      (r, wordOf (p.data 10) (p.data 11))
  else none

/-- The configuration after an optional register write. -/
def applyCommand (fl : ℚ → ℚ) (cfg : ModbusConfig) :
    Option (Register × BitVec 16) → ModbusConfig
  | some (r, v) => writeRegister fl cfg r v
  | none => cfg

/-- All that a segment does to the configuration is its command. -/
theorem recv_cfg :
    (modbusRecvCb fl inputs cfg (some p) 0).cfg = applyCommand fl cfg p.command := by
  by_cases hlen : mbapHeaderSize ≤ p.payload.length
  · rw [(recv_frame hlen).1]
    by_cases hwrite : p.data 7 = fcWriteSingleReg
    · rw [handleFrame_write hwrite, Pbuf.command, if_pos ⟨hlen, hwrite⟩, writeAddress]
      cases Register.ofAddress (wordOf (p.data 8) (p.data 9)) with
      | none => rfl
      | some r => rfl
    · rw [Pbuf.command, if_neg fun h => hwrite h.2]
      simp only [handleFrame, if_neg hwrite, applyCommand]
      split
      · split <;> rfl
      · rfl
  · rw [(recv_short hlen).1, Pbuf.command, if_neg fun h => hlen h.1]
    rfl

/-- The segment with which a master writes a register. -/
def writeSegment (r : Register) (v : BitVec 16) : Pbuf where
  payload := [0, 1, 0, 0, 0, 6, 1, fcWriteSingleReg, hiByte r.address, loByte r.address,
    hiByte v, loByte v]
  beyond := fun _ => 0
  totLen := 12

theorem writeSegment_command (r : Register) (v : BitVec 16) :
    (writeSegment r v).command = some (r, v) := by
  have hlen : mbapHeaderSize ≤ (writeSegment r v).payload.length := by
    simp [writeSegment, mbapHeaderSize]
  have hcode : (writeSegment r v).data 7 = fcWriteSingleReg := rfl
  have haddress : wordOf ((writeSegment r v).data 8) ((writeSegment r v).data 9) = r.address :=
    wordOf_hiByte_loByte r.address
  have hvalue : wordOf ((writeSegment r v).data 10) ((writeSegment r v).data 11) = v :=
    wordOf_hiByte_loByte v
  rw [Pbuf.command, if_pos ⟨hlen, hcode⟩, haddress, hvalue, Register.ofAddress_address]
  rfl

/-- A stopped motor and factory settings. -/
def restInputs : ReadInputs where
  position := 0
  motorState := .stopped
  cycleTime := 0
  cycleCounter := 0
  settings := defaultSettings

/-! ## The size of an answer -/

theorem length_registerBytes (startAddress : BitVec 16) (quantity : ℕ) :
    (registerBytes fl inputs cfg startAddress quantity).length = 2 * quantity := by
  simp [registerBytes, List.length_flatMap]
  omega

/-- The answer to a read of `quantity` registers has `9 + 2 * quantity` bytes. -/
theorem length_readResponse (startAddress quantity : BitVec 16) :
    (readResponse fl inputs cfg p startAddress quantity).length = 9 + 2 * quantity.toNat := by
  simp [readResponse, length_registerBytes]
  omega

end

end Modbus
end MDCMotorControl
