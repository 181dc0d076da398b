import MDCMotorControl.Telemetry.StreamFreshness

/-!
# Position requests

A recognised request makes the receive handler write its response to the same
driver that carries the stream.  The driver refuses a packet while a transfer is
running, and the handler does not look at the result.

Main results:

- Theorem `onByteReceived_recognised`: what the handler does with the last byte
  of a request.
- Theorem `bytes_of_recognised`: a request is a sync byte, the command and the
  checksum, whatever comes between them.
- Theorem `request_answered`: a request recognised while the UART is idle is
  answered once and completely, any other one not at all.
-/

namespace MDCMotorControl
namespace Telemetry

open Interruptible BigEndian

/-! ## The receive handler -/

/-- The next byte completes a request for the position. -/
structure Recognised (r : ReceivedByte) (l : Link) : Prop where
  waiting : l.currentState = .waitCrc
  command : l.rxCmd = reqPosition
  crc : crc8Atm [l.rxCmd] = r.incomingByte

/-- The response to a request, with what the handler reads for it. -/
def ReceivedByte.response (r : ReceivedByte) : ResponsePacket :=
  ResponsePacket.pack r.position (r.motorState.code.setWidth 8)

theorem memcpy_returns (cell : ℕ) (bytes : List Byte) : (memcpy cell bytes).Returns := by
  induction bytes generalizing cell with
  | nil => trivial
  | cons byte rest ih => exact ih (cell + 1)

theorem write_returns (buffer : List Byte) : (halTelemetryWriteBuffer buffer).Returns :=
  .branch trivial (.branch trivial ((memcpy_returns 0 buffer).seq trivial))

/-- The response packet is filled in and handed to the driver. -/
theorem exec_respond (r : ReceivedByte) (l : Link) :
    (Code.block [prepareResponse r, sendResponse]).exec l =
      { l with
        response := r.response
        uart := (halTelemetryWriteBuffer r.response.bytes).exec l.uart } := by
  have hlift : ∀ (c : Code Uart) (l : Link),
      (c.lift Link.uart Link.withUart).exec l = l.withUart (c.exec l.uart) :=
    Code.exec_lift (fun _ _ => rfl) (fun _ _ _ => rfl) fun _ => rfl
  simp only [prepareResponse, sendResponse, onUart, Code.block_cons, Code.block_nil, Code.seq_stmt,
    Code.seq_act, Code.seq_done_right, Code.exec_act, Code.exec_eval, hlift]
  rfl

/-- The handler on the last of three bytes. -/
theorem onByteReceived_waitCrc (r : ReceivedByte) {l : Link} (h : l.currentState = .waitCrc) :
    (appTelemetryOnByteReceived r).exec l =
      if crc8Atm [l.rxCmd] = r.incomingByte ∧ l.rxCmd = reqPosition then
        { l with
          response := r.response
          uart := (halTelemetryWriteBuffer r.response.bytes).exec l.uart
          currentState := .waitSync }
      else { l with currentState := .waitSync } := by
  have hreturns : (Code.whenever (fun l => crc8Atm [l.rxCmd] = r.incomingByte)
      (.whenever (·.rxCmd = reqPosition) (.block [prepareResponse r, sendResponse]))).Returns := by
    apply Code.Returns.whenever
    apply Code.Returns.whenever
    have hsend : sendResponse.Returns := fun l => (write_returns l.response.bytes).lift
    exact hsend.seq trivial
  rw [appTelemetryOnByteReceived, Code.exec_eval, h]
  dsimp only
  rw [Code.block_cons, Code.exec_seq hreturns, Code.block_singleton, Code.exec_stmt,
    Code.exec_whenever, Code.exec_whenever, exec_respond]
  by_cases hcrc : crc8Atm [l.rxCmd] = r.incomingByte
  · by_cases hcmd : l.rxCmd = reqPosition
    · rw [if_pos (decide_eq_true hcrc), if_pos (decide_eq_true hcmd), if_pos ⟨hcrc, hcmd⟩]
    · rw [if_pos (decide_eq_true hcrc), if_neg (by simpa using hcmd), if_neg fun h => hcmd h.2]
  · rw [if_neg (by simpa using hcrc), if_neg fun h => hcrc h.1]

/-- The handler on the last byte of a request. -/
theorem onByteReceived_recognised {r : ReceivedByte} {l : Link} (h : Recognised r l) :
    (appTelemetryOnByteReceived r).exec l =
      { l with
        response := r.response
        uart := (halTelemetryWriteBuffer r.response.bytes).exec l.uart
        currentState := .waitSync } := by
  rw [onByteReceived_waitCrc r h.waiting, if_pos ⟨h.crc, h.command⟩]

/-- The handler on any other byte, by the state of the receiver. -/
theorem onByteReceived_other {r : ReceivedByte} {l : Link} (h : ¬ Recognised r l) :
    (appTelemetryOnByteReceived r).exec l =
      match l.currentState with
      | .waitSync => if r.incomingByte = syncByte then { l with currentState := .waitCmd } else l
      | .waitCmd => { l with rxCmd := r.incomingByte, currentState := .waitCrc }
      | .waitCrc => { l with currentState := .waitSync } := by
  cases hstate : l.currentState with
  | waitSync =>
      rw [appTelemetryOnByteReceived, Code.exec_eval, hstate]
      simp [Code.exec_whenever]
  | waitCmd =>
      rw [appTelemetryOnByteReceived, Code.exec_eval, hstate]
      rfl
  | waitCrc =>
      rw [onByteReceived_waitCrc r hstate, if_neg fun hrec => h ⟨hstate, hrec.2, hrec.1⟩]

/-- A byte that completes no request leaves the UART alone. -/
theorem onByteReceived_uart {r : ReceivedByte} {l : Link} (h : ¬ Recognised r l) :
    ((appTelemetryOnByteReceived r).exec l).uart = l.uart := by
  rw [onByteReceived_other h]
  cases l.currentState with
  | waitSync =>
      dsimp only
      split <;> rfl
  | waitCmd => rfl
  | waitCrc => rfl

/-! ## Runs of the line -/

/-- What happens on the line: a received byte, or an event of the stream. -/
inductive LineEvent where
  | byte (r : ReceivedByte)
  | stream (e : StreamEvent)

/-- One event; the handlers are atomic. -/
def lineStep : Link → LineEvent → Link
  | l, .byte r => (appTelemetryOnByteReceived r).exec l
  | l, .stream e => streamStep l e

/-- A sequence of events. -/
def lineRun (events : List LineEvent) (l : Link) : Link :=
  events.foldl lineStep l

theorem lineRun_append (es fs : List LineEvent) (l : Link) :
    lineRun (es ++ fs) l = lineRun fs (lineRun es l) :=
  List.foldl_append

/-! ## Requests -/

/-- The bytes received in a sequence of events. -/
def receivedBytes (events : List LineEvent) : List Byte :=
  events.filterMap fun
    | .byte r => some r.incomingByte
    | .stream _ => none

/-- The receiver is in the middle of a request for reasons it has heard. -/
def Heard (bytes : List Byte) (l : Link) : Prop :=
  match l.currentState with
  | .waitSync => True
  | .waitCmd => ∃ earlier, bytes = earlier ++ [syncByte]
  | .waitCrc => ∃ earlier, bytes = earlier ++ [syncByte, l.rxCmd]

/-- The stream does not touch the receiver. -/
theorem streamStep_receiver (l : Link) (e : StreamEvent) :
    (streamStep l e).currentState = l.currentState ∧ (streamStep l e).rxCmd = l.rxCmd := by
  cases e with
  | dmaRead => exact ⟨rfl, rfl⟩
  | txComplete => exact ⟨rfl, rfl⟩
  | step currentPos =>
      rw [streamStep, exti95IrqHandler]
      split <;> exact ⟨rfl, rfl⟩

theorem Heard.step {bytes : List Byte} {l : Link} (h : Heard bytes l) (e : LineEvent) :
    Heard (bytes ++ receivedBytes [e]) (lineStep l e) := by
  cases e with
  | stream e =>
      obtain ⟨hstate, hcmd⟩ := streamStep_receiver l e
      have hnone : receivedBytes [.stream e] = [] := rfl
      rw [hnone, List.append_nil, Heard, lineStep, hstate, hcmd]
      exact h
  | byte r =>
      have hone : receivedBytes [.byte r] = [r.incomingByte] := rfl
      rw [hone, lineStep]
      by_cases hrec : Recognised r l
      · rw [onByteReceived_recognised hrec]
        trivial
      · rw [onByteReceived_other hrec]
        unfold Heard at h
        cases hstate : l.currentState with
        | waitSync =>
            dsimp only
            split
            · next hsync => exact ⟨bytes, by rw [hsync]⟩
            · rw [Heard, hstate]
              trivial
        | waitCmd =>
            rw [hstate] at h
            obtain ⟨earlier, rfl⟩ := h
            exact ⟨earlier, by simp⟩
        | waitCrc => trivial

theorem Heard.run {bytes : List Byte} {l : Link} (h : Heard bytes l) (events : List LineEvent) :
    Heard (bytes ++ receivedBytes events) (lineRun events l) := by
  induction events generalizing bytes l with
  | nil => simpa [receivedBytes, lineRun] using h
  | cons e es ih =>
      have hsplit : receivedBytes (e :: es) = receivedBytes [e] ++ receivedBytes es := by
        cases e <;> rfl
      rw [hsplit, ← List.append_assoc]
      exact ih (h.step e)

/-- A recognised request is three bytes received one after the other, the sync
byte, the command and its checksum, with anything else between them. -/
theorem bytes_of_recognised {l : Link} (hinit : l.currentState = .waitSync)
    {events : List LineEvent} {r : ReceivedByte} (h : Recognised r (lineRun events l)) :
    ∃ earlier, receivedBytes events ++ [r.incomingByte] =
      earlier ++ [syncByte, reqPosition, crc8Atm [reqPosition]] := by
  have hstart : Heard [] l := by
    rw [Heard, hinit]
    trivial
  have hheard := hstart.run events
  rw [Heard, h.waiting] at hheard
  obtain ⟨earlier, hbytes⟩ := hheard
  refine ⟨earlier, ?_⟩
  rw [List.nil_append] at hbytes
  rw [hbytes, ← h.crc, h.command, List.append_assoc]
  rfl

/-! ## One transfer at a time -/

/-- A packet is accepted exactly when the UART is idle. -/
theorem write_accepted {u : Uart} {buffer : List Byte} (hlen : buffer.length ≤ txBufferSize) :
    ((halTelemetryWriteBuffer buffer).exec u).accepted =
      if u.gState = .ready then u.accepted ++ [buffer] else u.accepted := by
  rw [exec_write]
  by_cases hready : u.gState = .ready
  · rw [if_pos ⟨hlen, hready⟩, if_pos hready]
    exact Uart.accepted_ret_true buffer u
  · rw [if_neg fun h => hready h.2, if_neg hready]
    exact Uart.accepted_ret_false buffer u

/-- One event keeps the transfers intact. -/
theorem Intact.lineStep {l : Link} (h : Intact l.uart) (e : LineEvent) :
    Intact (lineStep l e).uart := by
  cases e with
  | stream e => exact h.streamStep e
  | byte r =>
      by_cases hrec : Recognised r l
      · rw [Telemetry.lineStep, onByteReceived_recognised hrec]
        exact h.exec_write _
      · have huart : (Telemetry.lineStep l (.byte r)).uart = l.uart := onByteReceived_uart hrec
        rwa [huart]

theorem Intact.lineRun {l : Link} (h : Intact l.uart) (events : List LineEvent) :
    Intact (lineRun events l).uart := by
  induction events generalizing l with
  | nil => exact h
  | cons e es ih => exact ih (h.lineStep e)

/-! ## A response on its way -/

/-- The response is transfer `n`: it has been sent, or it is being sent and the
DMA has read `k` bytes of it, if it has so many. -/
def Answering (n : ℕ) (response : List Byte) (k : ℕ) (u : Uart) : Prop :=
  u.finished[n]? = some ⟨response, response⟩ ∨
    (u.finished.length = n ∧
      ∃ t, u.transfer = some t ∧ t.frame = response ∧ min k response.length ≤ t.sent.length)

namespace Answering

variable {n k : ℕ} {response : List Byte} {u : Uart}

/-- No other packet gets in the way. -/
theorem write (h : Answering n response k u) (hu : Intact u) (buffer : List Byte) :
    Answering n response k ((halTelemetryWriteBuffer buffer).exec u) := by
  rw [exec_write]
  rcases h with hsent | ⟨hn, t, ht, hframe, hk⟩
  · left
    split <;> exact hsent
  · have hbusy : u.gState ≠ .ready := by
      intro hready
      rw [hu.ready_iff.mp hready] at ht
      cases ht
    rw [if_neg fun h => hbusy h.2]
    exact .inr ⟨hn, t, ht, hframe, hk⟩

/-- The DMA reads the next byte. -/
theorem dmaRead (h : Answering n response k u) :
    Answering n response (k + 1) (Telemetry.dmaRead u) := by
  rcases h with hsent | ⟨hn, t, ht, hframe, hk⟩
  · left
    rcases dmaRead_cases u with hsame | ⟨_, _, _, hread⟩
    · rwa [hsame]
    · rwa [hread]
  · right
    by_cases hmore : t.sent.length < t.frame.length
    · have hread : Telemetry.dmaRead u =
          { u with transfer := some { t with sent := t.sent ++ [u.txBuffer t.sent.length] } } := by
        simp only [Telemetry.dmaRead, ht, if_pos hmore]
      rw [hread]
      refine ⟨hn, _, rfl, hframe, ?_⟩
      rw [List.length_append, List.length_singleton]
      omega
    · have hsame : Telemetry.dmaRead u = u := by
        simp only [Telemetry.dmaRead, ht, if_neg hmore]
      rw [hsame]
      rw [hframe] at hmore
      exact ⟨hn, t, ht, hframe, by omega⟩

/-- A completion ends the transfer of the response when all of it has been read. -/
theorem txComplete (h : Answering n response k u) (hu : Intact u) :
    Answering n response k (Telemetry.txComplete u) ∧
      (response.length ≤ k →
        (Telemetry.txComplete u).finished[n]? = some ⟨response, response⟩) := by
  rcases h with hsent | ⟨hn, t, ht, hframe, hk⟩
  · have hstill : (Telemetry.txComplete u).finished[n]? = some ⟨response, response⟩ := by
      rcases txComplete_cases u with hsame | ⟨t, _, _, hcomplete⟩
      · rwa [hsame]
      · rw [hcomplete]
        have hlt := (List.getElem?_eq_some_iff.mp hsent).1
        exact (List.getElem?_append_left hlt).trans hsent
    exact ⟨.inl hstill, fun _ => hstill⟩
  · have hprefix : t.sent = t.frame.take t.sent.length := (hu.running t ht).sent_eq
    have hle : t.sent.length ≤ t.frame.length := by
      have hlength := congrArg List.length hprefix
      rw [List.length_take] at hlength
      omega
    by_cases hall : t.sent.length = t.frame.length
    · have hsent : (Telemetry.txComplete u).finished[n]? = some ⟨response, response⟩ := by
        have hcomplete : (Telemetry.txComplete u).finished = u.finished ++ [t] := by
          simp only [Telemetry.txComplete, ht, if_pos hall]
        rw [hall, List.take_length, hframe] at hprefix
        obtain ⟨frame, sent⟩ := t
        obtain rfl : frame = response := hframe
        obtain rfl : sent = frame := hprefix
        rw [hcomplete, ← hn]
        exact List.getElem?_concat_length
      exact ⟨.inl hsent, fun _ => hsent⟩
    · have hsame : Telemetry.txComplete u = u := by
        simp only [Telemetry.txComplete, ht, if_neg hall]
      rw [hsame]
      refine ⟨.inr ⟨hn, t, ht, hframe, hk⟩, fun hlen => ?_⟩
      rw [hframe] at hall hle
      omega

end Answering

/-- The bytes that the DMA may read in a sequence of events. -/
def dmaReads : List LineEvent → ℕ
  | [] => 0
  | .stream .dmaRead :: events => dmaReads events + 1
  | _ :: events => dmaReads events

theorem Answering.step {n k : ℕ} {response : List Byte} {l : Link}
    (h : Answering n response k l.uart) (hl : Intact l.uart) (e : LineEvent) :
    Answering n response (k + dmaReads [e]) (lineStep l e).uart := by
  cases e with
  | byte r =>
      show Answering n response k (lineStep l (.byte r)).uart
      by_cases hrec : Recognised r l
      · rw [lineStep, onByteReceived_recognised hrec]
        exact h.write hl _
      · rwa [lineStep, onByteReceived_uart hrec]
  | stream e =>
      cases e with
      | dmaRead => exact h.dmaRead
      | txComplete => exact (h.txComplete hl).1
      | step currentPos =>
          show Answering n response k (exti95IrqHandler currentPos l).uart
          by_cases hchange : currentPos = l.lastSentPos
          · rwa [exti95IrqHandler_same hchange]
          · rw [exti95IrqHandler_changed hchange]
            exact h.write hl _

theorem Answering.run {n k : ℕ} {response : List Byte} {l : Link}
    (h : Answering n response k l.uart) (hl : Intact l.uart) (events : List LineEvent) :
    Answering n response (k + dmaReads events) (lineRun events l).uart := by
  induction events generalizing k l with
  | nil => exact h
  | cons e es ih =>
      have hcount : k + dmaReads (e :: es) = k + dmaReads [e] + dmaReads es := by
        cases e with
        | byte r => rfl
        | stream e =>
            cases e with
            | dmaRead => simp only [dmaReads]; omega
            | txComplete => rfl
            | step currentPos => rfl
      rw [hcount]
      exact ih (h.step hl e) (hl.lineStep e)

/-- Transfers that have been sent stay on record. -/
theorem finished_line_step (l : Link) (e : LineEvent) :
    l.uart.finished <+: (lineStep l e).uart.finished := by
  have hwrite : ∀ buffer,
      ((halTelemetryWriteBuffer buffer).exec l.uart).finished = l.uart.finished := by
    intro buffer
    rw [exec_write]
    split <;> rfl
  have hsame : (lineStep l e).uart.finished = l.uart.finished →
      l.uart.finished <+: (lineStep l e).uart.finished :=
    fun heq => heq ▸ List.prefix_refl _
  cases e with
  | byte r =>
      apply hsame
      by_cases hrec : Recognised r l
      · rw [lineStep, onByteReceived_recognised hrec, hwrite]
      · rw [lineStep, onByteReceived_uart hrec]
  | stream e =>
      cases e with
      | dmaRead =>
          apply hsame
          rcases dmaRead_cases l.uart with hread | ⟨_, _, _, hread⟩
          · rw [lineStep, streamStep, hread, Link.withUart_uart]
          · rw [lineStep, streamStep, hread, Link.withUart_uart]
      | txComplete =>
          rcases txComplete_cases l.uart with hidle | ⟨t, _, _, hcomplete⟩
          · apply hsame
            rw [lineStep, streamStep, hidle, Link.withUart_uart]
          · rw [lineStep, streamStep, hcomplete]
            exact List.prefix_append _ [t]
      | step currentPos =>
          apply hsame
          by_cases hchange : currentPos = l.lastSentPos
          · rw [lineStep, streamStep, exti95IrqHandler_same hchange]
          · rw [lineStep, streamStep, exti95IrqHandler_changed hchange]
            exact hwrite _

theorem finished_line_run (l : Link) (events : List LineEvent) :
    l.uart.finished <+: (lineRun events l).uart.finished := by
  induction events generalizing l with
  | nil => exact List.prefix_refl _
  | cons e es ih => exact (finished_line_step l e).trans (ih (lineStep l e))

/-- The frames of all transfers so far, the running one included. -/
def Uart.begun (u : Uart) : List (List Byte) :=
  (u.finished ++ u.transfer.toList).map Transfer.frame

/-- Through any sequence of received bytes, steps, DMA reads and completions from
an idle UART on: a request recognised while the UART is idle makes the handler
begin exactly one transfer, which from then on sends the response to the end,
five DMA reads and a completion later at the latest.  A request recognised while
a transfer is running begins none. -/
theorem request_answered (l : Link) (hinit : l.uart.Idle) (before : List LineEvent)
    (r : ReceivedByte) (hrec : Recognised r (lineRun before l)) :
    let l₁ := lineRun before l
    let l₂ := lineStep l₁ (.byte r)
    (l₁.uart.gState = .ready →
      l₂.uart.begun = l₁.uart.begun ++ [r.response.bytes] ∧
      ∀ during after, 5 ≤ dmaReads during →
        (lineRun (during ++ .stream .txComplete :: after) l₂).uart.finished[
          l₁.uart.begun.length]? = some ⟨r.response.bytes, r.response.bytes⟩) ∧
    (l₁.uart.gState ≠ .ready → l₂.uart.begun = l₁.uart.begun) := by
  intro l₁ l₂
  have hl : Intact l₁.uart := (Intact.of_idle hinit).lineRun before
  have huart : l₂.uart =
      (halTelemetryWriteBuffer r.response.bytes).exec l₁.uart := by
    show (lineStep l₁ (.byte r)).uart = _
    rw [lineStep, onByteReceived_recognised hrec]
  have hfive : r.response.bytes.length = 5 := rfl
  have hlen : r.response.bytes.length ≤ txBufferSize := by
    rw [hfive]
    decide
  have hl₂ : Intact l₂.uart := hl.lineStep (.byte r)
  have hbegun := @write_accepted l₁.uart _ hlen
  rw [← huart, hl₂.accepted_eq, hl.accepted_eq] at hbegun
  constructor
  · intro hready
    rw [if_pos hready] at hbegun
    refine ⟨hbegun, fun during after hreads => ?_⟩
    have hidle : l₁.uart.transfer = none := hl.ready_iff.mp hready
    have hplace : l₁.uart.finished.length = l₁.uart.begun.length := by
      simp [Uart.begun, hidle]
    have hstart : Answering l₁.uart.begun.length r.response.bytes 0 l₂.uart := by
      rw [huart, exec_write, if_pos ⟨hlen, hready⟩]
      exact .inr ⟨hplace, _, rfl, rfl, by simp⟩
    have hduring := hstart.run hl₂ during
    have hsent := (hduring.txComplete (hl₂.lineRun during)).2 (by omega)
    obtain ⟨later, hgrow⟩ :=
      finished_line_run (lineStep (lineRun during l₂) (.stream .txComplete)) after
    have hrun : lineRun (during ++ .stream .txComplete :: after) l₂ =
        lineRun after (lineStep (lineRun during l₂) (.stream .txComplete)) :=
      lineRun_append during _ l₂
    rw [hrun, ← hgrow]
    exact (List.getElem?_append_left (List.getElem?_eq_some_iff.mp hsent).1).trans hsent
  · intro hbusy
    rwa [if_neg hbusy] at hbegun

/-- The first two bytes of a request. -/
def requestStart : List LineEvent :=
  [.byte ⟨syncByte, 0, .stopped⟩, .byte ⟨reqPosition, 0, .stopped⟩]

/-- The last byte of a request, with the encoder at 7 and the motor cruising. -/
def requestEnd : ReceivedByte where
  incomingByte := crc8Atm [reqPosition]
  position := 7
  motorState := .cruising

/-- A step during the transfer, and the DMA reads of five bytes. -/
def transferWithStep : List LineEvent :=
  .stream (.step 8) :: List.replicate 5 (.stream .dmaRead)

theorem recognised_requestEnd : Recognised requestEnd (lineRun requestStart Link.init) :=
  ⟨by decide +kernel, by decide +kernel, by decide +kernel⟩

/-- A request to an idle link is answered although the encoder steps meanwhile. -/
theorem request_answered_once :
    (lineRun (transferWithStep ++ [.stream .txComplete])
        (lineStep (lineRun requestStart Link.init) (.byte requestEnd))).uart.finished[
          (lineRun requestStart Link.init).uart.begun.length]? =
      some ⟨requestEnd.response.bytes, requestEnd.response.bytes⟩ := by
  have hready : (lineRun requestStart Link.init).uart.gState = .ready := by decide +kernel
  obtain ⟨hidle, _⟩ := request_answered Link.init Uart.idle_init requestStart requestEnd
    recognised_requestEnd
  exact (hidle hready).2 transferWithStep [] (by decide)

/-- A request that is recognised while a stream packet is being sent: when the UART
is idle again it has sent the packet and no response. -/
theorem request_dropped :
    let before := .stream (.step 1) :: requestStart
    let after := List.replicate 4 (.stream .dmaRead) ++ [.stream .txComplete]
    let l := lineRun (before ++ .byte requestEnd :: after) Link.init
    (lineRun before Link.init).currentState = .waitCrc ∧
      (lineRun before Link.init).rxCmd = reqPosition ∧
      requestEnd.incomingByte = crc8Atm [reqPosition] ∧
      l.uart.gState = .ready ∧ l.uart.finished.map Transfer.sent = [[0x55, 0, 1, 0x07]] := by
  decide +kernel

end Telemetry
end MDCMotorControl
