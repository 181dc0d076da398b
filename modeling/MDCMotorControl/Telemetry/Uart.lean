import MDCMotorControl.Library.BigEndian
import MDCMotorControl.Library.InterruptibleCode
import Mathlib.Data.List.Range

/-!
# The telemetry UART

`HAL_Telemetry_WriteBuffer` checks that the UART is idle, copies a packet into
the one transmit buffer, and starts a DMA transfer from it.  The DMA fetches the
bytes from the transmit buffer while it sends them, not before.

Beside the state of the driver the model records every call with its result and
every transfer with what it sent.

Main results:

- Theorem `exec_write`: what an undisturbed call does.
- Theorems `dmaRead_cases` and `txComplete_cases`: what the DMA does.
- Theorem `Intact.irq`: preempting calls and the progress of the DMA keep the
  running transfer and the finished ones intact.
- Theorems `Intact.store` and `Intact.start`: the statements of a preempted call
  that keep them so.
-/

namespace MDCMotorControl
namespace Telemetry

open Interruptible BigEndian

/-! ## The driver -/

/-- `huart6.gState`, as far as transmission goes. -/
inductive UartState where
  | ready
  | busyTx
deriving DecidableEq, Repr

/-- A DMA transfer: the buffer of the call that started it, and the bytes that
the DMA has sent. -/
structure Transfer where
  frame : List Byte
  sent : List Byte
deriving DecidableEq, Repr

/-- The UART handle, the transmit buffer and the DMA stream.  The other fields
record what happened. -/
structure Uart where
  gState : UartState
  txBuffer : ℕ → Byte
  transfer : Option Transfer
  calls : List (List Byte × Bool)
  finished : List Transfer

namespace Uart

/-- The driver after `HAL_Telemetry_Init`. -/
def init : Uart where
  gState := .ready
  txBuffer _ := 0
  transfer := none
  calls := []
  finished := []

/-- The buffers of the calls that returned true, in order. -/
def accepted (u : Uart) : List (List Byte) :=
  (u.calls.filter (·.2)).map (·.1)

/-- A call of `HAL_Telemetry_WriteBuffer` returns. -/
def ret (buffer : List Byte) (result : Bool) (u : Uart) : Uart :=
  { u with calls := u.calls ++ [(buffer, result)] }

end Uart

/-- The UART is idle and nothing is recorded yet; the transmit buffer may hold
anything. -/
structure Uart.Idle (u : Uart) : Prop where
  ready : u.gState = .ready
  transfer : u.transfer = none
  calls : u.calls = []
  finished : u.finished = []

theorem Uart.idle_init : Uart.init.Idle :=
  ⟨rfl, rfl, rfl, rfl⟩

/-- `TX_BUFFER_SIZE`. -/
def txBufferSize : ℕ := 64

/-- One byte of `memcpy`. -/
def store (cell : ℕ) (byte : Byte) (u : Uart) : Uart :=
  { u with txBuffer := Function.update u.txBuffer cell byte }

/-- `memcpy` into the transmit buffer from the given cell on, byte by byte. -/
def memcpy : ℕ → List Byte → Code Uart
  | _, [] => .done
  | cell, byte :: rest => .act (store cell byte) (memcpy (cell + 1) rest)

/-- `HAL_UART_Transmit_DMA` on the transmit buffer, and the return of its result. -/
def halUartTransmitDma (buffer : List Byte) (u : Uart) : Uart :=
  if u.gState = .ready then
    { u.ret buffer true with gState := .busyTx, transfer := some ⟨buffer, []⟩ }
  else u.ret buffer false

/-- `HAL_Telemetry_WriteBuffer`. -/
def halTelemetryWriteBuffer (buffer : List Byte) : Code Uart :=
  .branch (fun _ => txBufferSize < buffer.length) (.stmt (Uart.ret buffer false)) <|
    .branch (·.gState != .ready) (.stmt (Uart.ret buffer false)) <|
      (memcpy 0 buffer).seq (.stmt (halUartTransmitDma buffer))

/-- The DMA fetches the next byte and sends it. -/
def dmaRead (u : Uart) : Uart :=
  match u.transfer with
  | some t =>
      if t.sent.length < t.frame.length then
        { u with transfer := some { t with sent := t.sent ++ [u.txBuffer t.sent.length] } }
      else u
  | none => u

/-- The transmission complete interrupt, after the last byte. -/
def txComplete (u : Uart) : Uart :=
  match u.transfer with
  | some t =>
      if t.sent.length = t.frame.length then
        { u with gState := .ready, transfer := none, finished := u.finished ++ [t] }
      else u
  | none => u

/-- The DMA sends one byte, or there is none to send. -/
theorem dmaRead_cases (u : Uart) :
    dmaRead u = u ∨ ∃ t, u.transfer = some t ∧ t.sent.length < t.frame.length ∧
      dmaRead u =
        { u with transfer := some { t with sent := t.sent ++ [u.txBuffer t.sent.length] } } := by
  unfold dmaRead
  split
  · next t ht =>
    split
    · next hmore => exact .inr ⟨t, ht, hmore, rfl⟩
    · exact .inl rfl
  · exact .inl rfl

/-- A transfer ends, or there is none to end. -/
theorem txComplete_cases (u : Uart) :
    txComplete u = u ∨ ∃ t, u.transfer = some t ∧ t.sent.length = t.frame.length ∧
      txComplete u =
        { u with gState := .ready, transfer := none, finished := u.finished ++ [t] } := by
  unfold txComplete
  split
  · next t ht =>
    split
    · next hlen => exact .inr ⟨t, ht, hlen, rfl⟩
    · exact .inl rfl
  · exact .inl rfl

/-- What interrupts the receive path, as far as the UART is concerned. -/
inductive UartInput where
  | preempt (buffer : List Byte)
  | dmaRead
  | txComplete

/-- The encoder step handler writes to completion; until its transfer has been
started the DMA is idle, so the progress of the DMA is before it or after it. -/
def uartIrq : UartInput → Uart → Uart
  | .preempt buffer => (halTelemetryWriteBuffer buffer).exec
  | .dmaRead => Telemetry.dmaRead
  | .txComplete => Telemetry.txComplete

/-! ## An undisturbed call -/

/-- The transmit buffer with bytes stored from a cell on. -/
def overlay (cell : ℕ) (bytes : List Byte) (f : ℕ → Byte) (i : ℕ) : Byte :=
  if i < cell then f i else bytes[i - cell]?.getD (f i)

theorem overlay_cons (cell : ℕ) (byte : Byte) (rest : List Byte) (f : ℕ → Byte) :
    overlay (cell + 1) rest (Function.update f cell byte) = overlay cell (byte :: rest) f := by
  ext i
  rcases lt_trichotomy i cell with h | rfl | h
  · simp [overlay, h, h.ne, Nat.lt_succ_of_lt h]
  · simp [overlay]
  · have hsub : i - cell = i - (cell + 1) + 1 := by omega
    have hlt : ¬ i < cell := by omega
    have hlt' : ¬ i < cell + 1 := by omega
    simp [overlay, hlt, hlt', hsub, h.ne']

theorem overlay_zero {bytes : List Byte} {i : ℕ} (h : i < bytes.length) (f : ℕ → Byte) :
    bytes[i]? = some (overlay 0 bytes f i) := by
  simp [overlay, h]

/-- `memcpy` puts the bytes in place. -/
theorem exec_memcpy (bytes : List Byte) (cell : ℕ) (u : Uart) (next : Code Uart) :
    ((memcpy cell bytes).seq next).exec u =
      next.exec { u with txBuffer := overlay cell bytes u.txBuffer } := by
  induction bytes generalizing cell u with
  | nil =>
      have hbuffer : overlay cell [] u.txBuffer = u.txBuffer := by
        ext i
        simp [overlay]
      rw [hbuffer]
      rfl
  | cons byte rest ih =>
      rw [memcpy, Code.seq_act, Code.exec_act, ih (cell + 1)]
      simp only [store, overlay_cons]

/-- The state after a call that found the UART idle and was not interrupted. -/
def Uart.started (buffer : List Byte) (u : Uart) : Uart :=
  { u.ret buffer true with
    gState := .busyTx
    txBuffer := overlay 0 buffer u.txBuffer
    transfer := some ⟨buffer, []⟩ }

/-- An undisturbed call starts a transfer of its buffer when the UART is idle, and
does nothing when it is busy or the buffer is too long. -/
theorem exec_write (buffer : List Byte) (u : Uart) :
    (halTelemetryWriteBuffer buffer).exec u =
      if buffer.length ≤ txBufferSize ∧ u.gState = .ready then u.started buffer
      else u.ret buffer false := by
  rw [halTelemetryWriteBuffer, Code.exec_branch, Code.exec_branch, Code.exec_stmt]
  by_cases hlen : buffer.length ≤ txBufferSize
  · have hlen' : ¬ txBufferSize < buffer.length := by omega
    rw [if_neg (by simpa using hlen')]
    by_cases hstate : u.gState = .ready
    · rw [if_neg (by simp [hstate]), if_pos ⟨hlen, hstate⟩, exec_memcpy, Code.exec_stmt,
        halUartTransmitDma, if_pos hstate]
      rfl
    · rw [if_pos (by simpa using hstate), if_neg fun h => hstate h.2]
  · have hlen' : txBufferSize < buffer.length := by omega
    rw [if_pos (by simpa using hlen'), if_neg fun h => hlen h.1]

/-! ## Intact transfers -/

/-- What the transfer sent is the start of its frame, and the transmit buffer
holds the rest of it. -/
structure Transfer.InFlight (txBuffer : ℕ → Byte) (t : Transfer) : Prop where
  sent_eq : t.sent = t.frame.take t.sent.length
  rest_eq : ∀ i, t.sent.length ≤ i → i < t.frame.length → t.frame[i]? = some (txBuffer i)

/-- The transfers of the driver are the calls that returned true, and they send the
buffers of these calls. -/
structure Intact (u : Uart) : Prop where
  ready_iff : u.gState = .ready ↔ u.transfer = none
  accepted_eq : u.accepted = (u.finished ++ u.transfer.toList).map Transfer.frame
  finished_eq : ∀ t ∈ u.finished, t.sent = t.frame
  running : ∀ t ∈ u.transfer, t.InFlight u.txBuffer

namespace Uart

theorem accepted_ret_true (buffer : List Byte) (u : Uart) :
    (u.ret buffer true).accepted = u.accepted ++ [buffer] := by
  simp [accepted, ret]

theorem accepted_ret_false (buffer : List Byte) (u : Uart) :
    (u.ret buffer false).accepted = u.accepted := by
  simp [accepted, ret]

end Uart

namespace Intact

variable {u : Uart}

theorem of_idle (h : u.Idle) : Intact u where
  ready_iff := by simp [h.ready, h.transfer]
  accepted_eq := by simp [Uart.accepted, h.calls, h.finished, h.transfer]
  finished_eq := by simp [h.finished]
  running := by simp [h.transfer]

/-- A call that returns false changes nothing. -/
theorem ret_false (h : Intact u) (buffer : List Byte) : Intact (u.ret buffer false) where
  ready_iff := h.ready_iff
  accepted_eq := (Uart.accepted_ret_false buffer u).trans h.accepted_eq
  finished_eq := h.finished_eq
  running := h.running

/-- A store of the byte that the running transfer has there, if it has one, leaves the
bytes to be sent alone. -/
theorem store (h : Intact u) {cell : ℕ} {byte : Byte}
    (hbyte : ∀ t ∈ u.transfer, cell < t.frame.length → t.frame[cell]? = some byte) :
    Intact (Telemetry.store cell byte u) where
  ready_iff := h.ready_iff
  accepted_eq := h.accepted_eq
  finished_eq := h.finished_eq
  running t ht := by
    have hflight := h.running t ht
    refine ⟨hflight.sent_eq, fun i hsent hlen => ?_⟩
    by_cases hi : i = cell
    · subst hi
      simpa [Telemetry.store] using hbyte t ht hlen
    · simpa [Telemetry.store, hi] using hflight.rest_eq i hsent hlen

/-- A started transfer is in flight when the transmit buffer holds its frame. -/
theorem start (h : Intact u) {buffer : List Byte} (hstate : u.gState = .ready)
    (hheld : ∀ i < buffer.length, buffer[i]? = some (u.txBuffer i)) :
    Intact (halUartTransmitDma buffer u) := by
  have hidle : u.transfer = none := h.ready_iff.mp hstate
  have haccepted : u.accepted = u.finished.map Transfer.frame := by
    simpa [hidle] using h.accepted_eq
  rw [halUartTransmitDma, if_pos hstate]
  refine ⟨by simp, ?_, h.finished_eq, fun t ht => ?_⟩
  · show (u.ret buffer true).accepted = List.map Transfer.frame (u.finished ++ [⟨buffer, []⟩])
    rw [Uart.accepted_ret_true, haccepted, List.map_append]
    rfl
  · obtain rfl : ⟨buffer, []⟩ = t := Option.some.inj ht
    exact ⟨rfl, fun i _ hi => hheld i hi⟩

/-- The DMA sends the next byte of the frame. -/
theorem dmaRead (h : Intact u) : Intact (Telemetry.dmaRead u) := by
  rcases dmaRead_cases u with hsame | ⟨t, ht, hmore, hread⟩
  · rwa [hsame]
  · rw [hread]
    refine ⟨by simp [h.ready_iff, ht], ?_, h.finished_eq, fun t' ht' => ?_⟩
    · simpa [Uart.accepted, ht] using h.accepted_eq
    · obtain rfl := Option.some.inj ht'
      obtain ⟨hsent, hrest⟩ := h.running t ht
      have hnext : t.frame[t.sent.length]? = some (u.txBuffer t.sent.length) :=
        hrest _ le_rfl hmore
      refine ⟨?_, fun i hi hlen => hrest i (by simp at hi; omega) hlen⟩
      show t.sent ++ [_] = t.frame.take (t.sent ++ [_]).length
      rw [List.length_append, List.length_singleton, List.take_add_one, ← hsent, hnext]
      rfl

/-- A complete transfer has sent its frame. -/
theorem txComplete (h : Intact u) : Intact (Telemetry.txComplete u) := by
  rcases txComplete_cases u with hsame | ⟨t, ht, hlen, hcomplete⟩
  · rwa [hsame]
  · rw [hcomplete]
    refine ⟨by simp, ?_, fun t' ht' => ?_, by simp⟩
    · simpa [Uart.accepted, ht] using h.accepted_eq
    · rcases List.mem_append.mp ht' with ht' | ht'
      · exact h.finished_eq t' ht'
      · obtain rfl := List.mem_singleton.mp ht'
        have hsent := (h.running t' ht).sent_eq
        rwa [hlen, List.take_length] at hsent

/-- A call that is not interrupted keeps the transfers intact. -/
theorem exec_write (h : Intact u) (buffer : List Byte) :
    Intact ((halTelemetryWriteBuffer buffer).exec u) := by
  rw [Telemetry.exec_write]
  split
  · next hstart =>
    have hidle : u.transfer = none := h.ready_iff.mp hstart.2
    refine ⟨by simp [Uart.started], ?_, h.finished_eq, fun t ht => ?_⟩
    · have haccepted : u.accepted = u.finished.map Transfer.frame := by
        simpa [hidle] using h.accepted_eq
      show (u.ret buffer true).accepted = List.map Transfer.frame (u.finished ++ [⟨buffer, []⟩])
      rw [Uart.accepted_ret_true, haccepted, List.map_append]
      rfl
    · obtain rfl : ⟨buffer, []⟩ = t := Option.some.inj ht
      exact ⟨rfl, fun i _ hi => overlay_zero hi u.txBuffer⟩
  · exact h.ret_false buffer

/-- The transfers stay intact under everything that interrupts the receive path. -/
theorem irq (h : Intact u) (input : UartInput) : Intact (uartIrq input u) := by
  cases input with
  | preempt buffer => exact h.exec_write buffer
  | dmaRead => exact h.dmaRead
  | txComplete => exact h.txComplete

end Intact

end Telemetry
end MDCMotorControl
