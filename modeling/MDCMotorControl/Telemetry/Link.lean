import MDCMotorControl.Motor.Kinematics
import MDCMotorControl.Telemetry.Packets
import MDCMotorControl.Telemetry.Uart

/-!
# The telemetry link

The receive state machine of `app_telemetry.c`, which answers position requests,
and the encoder step interrupt, which streams positions.  The step interrupt
preempts the receive interrupt, and both write to the same UART.

Main results:

- Theorem `linkIrq_uart`: the interrupts as the UART sees them.
- Theorems `exti95IrqHandler_same` and `exti95IrqHandler_changed`: the step
  interrupt writes a packet when the counter differs from the last one seen.
-/

namespace MDCMotorControl
namespace Telemetry

open Interruptible BigEndian

/-! ## State -/

/-- `eRxState_t`. -/
inductive RxState where
  | waitSync
  | waitCmd
  | waitCrc
deriving DecidableEq, Repr

/-- The statics of `app_telemetry.c`, the change filter of `hal_encoder.c`, and
the UART. -/
structure Link where
  currentState : RxState
  rxCmd : Byte
  response : ResponsePacket
  streamPacket : FastStreamPacket
  lastSentPos : BitVec 16
  uart : Uart

namespace Link

/-- Replace the UART. -/
def withUart (uart : Uart) (l : Link) : Link :=
  { l with uart := uart }

/-- Change a field of the response packet. -/
def onResponse (f : ResponsePacket → ResponsePacket) (l : Link) : Link :=
  { l with response := f l.response }

@[simp] theorem withUart_uart (uart : Uart) (l : Link) : (l.withUart uart).uart = uart := rfl

/-- The link after initialisation. -/
def init : Link where
  currentState := .waitSync
  rxCmd := 0
  response := ⟨0, 0, 0, 0⟩
  streamPacket := ⟨0, 0, 0⟩
  lastSentPos := 0xFFFF
  uart := Uart.init

end Link

/-! ## The receive interrupt -/

/-- A received byte, with the encoder position and the motor state that its
handler reads. -/
structure ReceivedByte where
  incomingByte : Byte
  position : BitVec 16
  motorState : Motor.MotorState

/-- Fill in the response packet, field by field. -/
def prepareResponse (r : ReceivedByte) : Code Link :=
  .block [
    .stmt (Link.onResponse ({ · with sync := syncByte })),
    .stmt (Link.onResponse ({ · with rawPosition := bswap16 r.position })),
    .stmt (Link.onResponse ({ · with motorState := r.motorState.code.setWidth 8 })),
    .stmt (Link.onResponse fun p => { p with crc := crc8Atm p.checked })]

/-- Code of the driver, over the link. -/
def onUart (c : Code Uart) : Code Link :=
  c.lift Link.uart Link.withUart

/-- Hand the response packet to the driver.  No other context writes to it. -/
def sendResponse : Code Link :=
  .eval fun l => onUart (halTelemetryWriteBuffer l.response.bytes)

/-- `App_Telemetry_OnByteReceived`. -/
def appTelemetryOnByteReceived (r : ReceivedByte) : Code Link :=
  .eval fun l =>
    match l.currentState with
    | .waitSync =>
        .whenever (fun _ => r.incomingByte = syncByte) (.stmt ({ · with currentState := .waitCmd }))
    | .waitCmd =>
        .block [.stmt ({ · with rxCmd := r.incomingByte }),
          .stmt ({ · with currentState := .waitCrc })]
    | .waitCrc =>
        .block [
          .whenever (fun l => crc8Atm [l.rxCmd] = r.incomingByte)
            (.whenever (·.rxCmd = reqPosition) (.block [prepareResponse r, sendResponse])),
          .stmt ({ · with currentState := .waitSync })]

/-! ## The encoder step interrupt -/

/-- `App_Telemetry_OnEncoderStep`. -/
def appTelemetryOnEncoderStep (currentPosition : BitVec 16) (l : Link) : Link :=
  let packet := FastStreamPacket.pack currentPosition
  { l with
    streamPacket := packet
    uart := (halTelemetryWriteBuffer packet.bytes).exec l.uart }

/-- `EXTI9_5_IRQHandler`, with the counter value it reads. -/
def exti95IrqHandler (currentPos : BitVec 16) (l : Link) : Link :=
  if currentPos ≠ l.lastSentPos then
    appTelemetryOnEncoderStep currentPos { l with lastSentPos := currentPos }
  else l

theorem exti95IrqHandler_same {currentPos : BitVec 16} {l : Link}
    (h : currentPos = l.lastSentPos) : exti95IrqHandler currentPos l = l :=
  if_neg (not_not.mpr h)

theorem exti95IrqHandler_changed {currentPos : BitVec 16} {l : Link}
    (h : currentPos ≠ l.lastSentPos) :
    exti95IrqHandler currentPos l =
      appTelemetryOnEncoderStep currentPos { l with lastSentPos := currentPos } :=
  if_pos h

/-! ## The link under preemption -/

/-- What interrupts the receive path: an encoder step at a position, a byte
fetched by the DMA, or the end of a transfer. -/
inductive LinkInput where
  | encoderStep (currentPosition : BitVec 16)
  | dmaRead
  | txComplete
deriving DecidableEq

/-- The interrupt as the UART sees it. -/
def LinkInput.toUart : LinkInput → UartInput
  | encoderStep currentPosition => .preempt (FastStreamPacket.pack currentPosition).bytes
  | dmaRead => .dmaRead
  | txComplete => .txComplete

/-- What one interrupt does to the link. -/
def linkIrq : LinkInput → Link → Link
  | .encoderStep currentPosition, l => appTelemetryOnEncoderStep currentPosition l
  | .dmaRead, l => l.withUart (dmaRead l.uart)
  | .txComplete, l => l.withUart (txComplete l.uart)

theorem linkIrq_uart (input : LinkInput) (l : Link) :
    (linkIrq input l).uart = uartIrq input.toUart l.uart := by
  cases input <;> rfl

/-- The receive path, byte after byte, preempted by the step interrupt and the DMA. -/
def linkSystem : System Link LinkInput ReceivedByte where
  irq := linkIrq
  body := appTelemetryOnByteReceived

end Telemetry
end MDCMotorControl
