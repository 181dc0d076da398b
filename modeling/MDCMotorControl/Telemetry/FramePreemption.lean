import MDCMotorControl.Library.ProgramPoints
import MDCMotorControl.Telemetry.Link

/-!
# Telemetry frames under preemption

A preempting call of `HAL_Telemetry_WriteBuffer` runs from its idle check to the
start of its transfer at once.  It may fall between the idle check of a preempted
call and the start of that call's transfer: then the preempted call goes on to copy
its buffer over a transfer that is running, or starts a transfer of what the
preempting call left.  `StepsAgree` says of a schedule that no encoder step is
accepted there, unless its packet is what the preempted call copies anyway.

Main results:

- Theorem `Copying.irq`: such steps, and the progress of the DMA, leave a copy that
  is under way as it is.
- Theorem `intact_run`: the transfers stay intact in every run with such steps.
- Theorem `frames_survive`: in these runs the bytes the DMA sends for the calls that
  returned true are the buffers of these calls.
- Theorem `stream_packet_spoiled`: a step after the idle check spoils its own packet.
-/

namespace MDCMotorControl
namespace Telemetry

open Interruptible BigEndian

/-! ## Steps during a call of the receive path -/

/-- What is left of a call of `HAL_Telemetry_WriteBuffer` from its idle check on. -/
def fromIdleCheck (buffer : List Byte) : Code Uart :=
  .branch (·.gState != .ready) (.stmt (Uart.ret buffer false))
    ((memcpy 0 buffer).seq (.stmt (halUartTransmitDma buffer)))

/-- What is left of a call that has found the UART idle and has copied `k` bytes. -/
def fromCopied (buffer : List Byte) (k : ℕ) : Code Uart :=
  (memcpy k (buffer.drop k)).seq (.stmt (halUartTransmitDma buffer))

/-- The link after initialisation, with no byte received yet. -/
def linkStart : Config Link :=
  ⟨.done, Link.init⟩

/-- An encoder step that finds the UART idle while the receive path is between the idle
check of its call and the start of the transfer has a packet that the response packet
begins with. -/
def StepsAgree (schedule : List (Event LinkInput ReceivedByte)) : Prop :=
  ∀ before currentPosition after,
    schedule = before ++ .irq (.encoderStep currentPosition) :: after →
      let c := linkSystem.run before linkStart
      ∀ k tail, c.code = (onUart (fromCopied c.state.response.bytes k)).seq tail →
        c.state.uart.gState = .ready →
          (FastStreamPacket.pack currentPosition).bytes <+: c.state.response.bytes

/-! ## The copy of the preempted call -/

/-- The first `k` bytes have been copied, and a transfer that runs sends a beginning of the
buffer. -/
structure Copying (buffer : List Byte) (k : ℕ) (u : Uart) : Prop where
  copied : ∀ i < k, buffer[i]? = some (u.txBuffer i)
  running : ∀ t ∈ u.transfer, t.frame <+: buffer

namespace Copying

variable {buffer : List Byte} {k : ℕ} {u : Uart}

/-- A call that finds the UART idle begins its copy. -/
theorem of_ready (hu : Intact u) (hready : u.gState = .ready) : Copying buffer 0 u := by
  refine ⟨fun i hi => absurd hi (Nat.not_lt_zero i), fun t ht => ?_⟩
  rw [hu.ready_iff.mp hready] at ht
  cases ht

/-- The next store of the call. -/
theorem store (h : Copying buffer k u) {byte : Byte} (hbyte : buffer[k]? = some byte) :
    Copying buffer (k + 1) (Telemetry.store k byte u) := by
  refine ⟨fun i hi => ?_, h.running⟩
  by_cases hcell : i = k
  · subst hcell
    simpa [Telemetry.store] using hbyte
  · simpa [Telemetry.store, hcell] using h.copied i (by omega)

/-- A running transfer has the byte that is stored next, or is shorter. -/
theorem next_byte (h : Copying buffer k u) {byte : Byte} (hbyte : buffer[k]? = some byte) :
    ∀ t ∈ u.transfer, k < t.frame.length → t.frame[k]? = some byte := by
  intro t ht hlen
  rw [← hbyte]
  obtain ⟨rest, hrest⟩ := h.running t ht
  rw [← hrest, List.getElem?_append_left hlen]

/-- A step whose packet is copied anyway, and the progress of the DMA, leave the copy as it
is. -/
theorem irq (h : Copying buffer k u) {input : UartInput}
    (hagree : ∀ frame, input = .preempt frame → u.gState = .ready → frame <+: buffer) :
    Copying buffer k (uartIrq input u) := by
  cases input with
  | preempt frame =>
      show Copying buffer k ((halTelemetryWriteBuffer frame).exec u)
      rw [exec_write]
      split
      · next hstart =>
        obtain ⟨rest, hrest⟩ := hagree frame rfl hstart.2
        refine ⟨fun i hi => ?_, fun t ht => ?_⟩
        · by_cases hlen : i < frame.length
          · rw [← hrest, List.getElem?_append_left hlen]
            exact overlay_zero hlen u.txBuffer
          · have hkept : overlay 0 frame u.txBuffer i = u.txBuffer i := by
              simp [overlay, List.getElem?_eq_none (Nat.not_lt.mp hlen)]
            exact (h.copied i hi).trans (congrArg some hkept.symm)
        · obtain rfl : ⟨frame, []⟩ = t := Option.some.inj ht
          exact ⟨rest, hrest⟩
      · exact ⟨h.copied, h.running⟩
  | dmaRead =>
      show Copying buffer k (dmaRead u)
      rcases dmaRead_cases u with hsame | ⟨t, ht, -, hread⟩
      · rwa [hsame]
      · rw [hread]
        refine ⟨h.copied, fun t' ht' => ?_⟩
        obtain rfl := Option.some.inj ht'
        exact h.running t ht
  | txComplete =>
      show Copying buffer k (txComplete u)
      rcases txComplete_cases u with hsame | ⟨t, -, -, hcomplete⟩
      · rwa [hsame]
      · rw [hcomplete]
        exact ⟨h.copied, by simp⟩

end Copying

/-! ## The statements of the receive path -/

/-- A statement that keeps the transfers intact. -/
def KeepsIntact (f : Link → Link) : Prop :=
  ∀ l, Intact l.uart → Intact (f l).uart

theorem intact_stable : Stable linkSystem.irq fun l => Intact l.uart := by
  intro input l h
  show Intact (linkIrq input l).uart
  rw [linkIrq_uart]
  exact h.irq input.toUart

/-- No interrupt writes to the response packet. -/
theorem response_stable (p : ResponsePacket) :
    Stable linkSystem.irq fun l => l.response = p := by
  intro input l h
  cases input <;> exact h

/-- The receive path is made of plain statements up to the call of the driver. -/
theorem onByteReceived_sectioned (r : ReceivedByte) :
    (appTelemetryOnByteReceived r).Sectioned KeepsIntact (· = sendResponse) := by
  have hplain : ∀ f : Link → Link, (∀ l, (f l).uart = l.uart) →
      (Code.stmt f).Sectioned KeepsIntact (· = sendResponse) := by
    refine fun f hf => .stmt fun l hl => ?_
    rwa [hf]
  have hsend : (Code.block [sendResponse]).Sectioned KeepsIntact (· = sendResponse) :=
    .marked rfl .done
  have hprepare : (prepareResponse r).Sectioned KeepsIntact (· = sendResponse) :=
    .block_cons (hplain _ fun _ => rfl) <| .block_cons (hplain _ fun _ => rfl) <|
      .block_cons (hplain _ fun _ => rfl) <| .block_cons (hplain _ fun _ => rfl) .done
  refine .eval fun l => ?_
  cases l.currentState with
  | waitSync => exact .whenever (hplain _ fun _ => rfl)
  | waitCmd =>
      exact .block_cons (hplain _ fun _ => rfl) <| .block_cons (hplain _ fun _ => rfl) .done
  | waitCrc =>
      exact .block_cons (.whenever <| .whenever <| .block_cons hprepare hsend) <|
        .block_cons (hplain _ fun _ => rfl) .done

/-- The receive path is in a call of the driver with the response packet: before one of its
two checks, or between the idle check and the start of the transfer. -/
inductive InCall : Config Link → Prop
  | lengthCheck {l : Link} {tail : Code Link}
      (htail : tail.Sectioned KeepsIntact (· = sendResponse)) :
      InCall ⟨(onUart (halTelemetryWriteBuffer l.response.bytes)).seq tail, l⟩
  | idleCheck {l : Link} {tail : Code Link}
      (htail : tail.Sectioned KeepsIntact (· = sendResponse)) :
      InCall ⟨(onUart (fromIdleCheck l.response.bytes)).seq tail, l⟩
  | copying {l : Link} {tail : Code Link} (k : ℕ)
      (htail : tail.Sectioned KeepsIntact (· = sendResponse))
      (hcopying : Copying l.response.bytes k l.uart) :
      InCall ⟨(onUart (fromCopied l.response.bytes k)).seq tail, l⟩

theorem fromCopied_of_lt {buffer : List Byte} {k : ℕ} (h : k < buffer.length) :
    fromCopied buffer k = .act (store k (buffer.get ⟨k, h⟩)) (fromCopied buffer (k + 1)) := by
  rw [fromCopied, List.drop_eq_getElem_cons h]
  rfl

theorem fromCopied_of_le {buffer : List Byte} {k : ℕ} (h : buffer.length ≤ k) :
    fromCopied buffer k = .stmt (halUartTransmitDma buffer) := by
  rw [fromCopied, List.drop_eq_nil_of_le h]
  rfl

/-- Between the idle check and the start a statement waits. -/
theorem fromCopied_act (buffer : List Byte) (k : ℕ) (tail : Code Link) :
    ∃ f next, (onUart (fromCopied buffer k)).seq tail = .act f next := by
  by_cases h : k < buffer.length
  · rw [fromCopied_of_lt h]
    exact ⟨_, _, rfl⟩
  · rw [fromCopied_of_le (Nat.not_lt.mp h)]
    exact ⟨_, _, rfl⟩

/-! ## Runs -/

/-- The transfers are intact, and the receive path is at a plain statement or in a call of
the driver. -/
def InOrder (c : Config Link) : Prop :=
  Intact c.state.uart ∧ (c.code.Sectioned KeepsIntact (· = sendResponse) ∨ InCall c)

/-- The next statement of a call of the driver. -/
theorem InCall.main {c : Config Link} (hcall : InCall c) (hl : Intact c.state.uart) :
    InOrder (linkSystem.step .main c) := by
  have hret : ∀ (l : Link) (tail : Code Link), Intact l.uart →
      tail.Sectioned KeepsIntact (· = sendResponse) →
      InOrder ⟨(onUart (.stmt (Uart.ret l.response.bytes false))).seq tail, l⟩ :=
    fun l tail hl htail => ⟨hl, .inl (.act (fun _ h => h.ret_false l.response.bytes) htail)⟩
  cases hcall with
  | @lengthCheck l tail htail =>
      have hread : linkSystem.step .main
          ⟨(onUart (halTelemetryWriteBuffer l.response.bytes)).seq tail, l⟩ =
            ⟨(onUart (bif decide (txBufferSize < l.response.bytes.length)
              then .stmt (Uart.ret l.response.bytes false)
              else fromIdleCheck l.response.bytes)).seq tail, l⟩ := rfl
      rw [hread]
      cases decide (txBufferSize < l.response.bytes.length) with
      | true => exact hret l tail hl htail
      | false => exact ⟨hl, .inr (.idleCheck htail)⟩
  | @idleCheck l tail htail =>
      have hread : linkSystem.step .main
          ⟨(onUart (fromIdleCheck l.response.bytes)).seq tail, l⟩ =
            ⟨(onUart (bif l.uart.gState != .ready then .stmt (Uart.ret l.response.bytes false)
              else fromCopied l.response.bytes 0)).seq tail, l⟩ := rfl
      rw [hread]
      cases hbusy : l.uart.gState != .ready with
      | true => exact hret l tail hl htail
      | false => exact ⟨hl, .inr (.copying 0 htail (.of_ready hl (by simpa using hbusy)))⟩
  | @copying l tail k htail hcopying =>
      by_cases hlen : k < l.response.bytes.length
      · have hbyte : l.response.bytes[k]? = some (l.response.bytes.get ⟨k, hlen⟩) :=
          List.getElem?_eq_getElem hlen
        rw [fromCopied_of_lt hlen]
        exact ⟨hl.store (hcopying.next_byte hbyte),
          .inr (.copying (l := l.withUart (store k _ l.uart)) (k + 1) htail
            (hcopying.store hbyte))⟩
      · rw [fromCopied_of_le (Nat.not_lt.mp hlen)]
        refine ⟨?_, .inl htail⟩
        show Intact (halUartTransmitDma l.response.bytes l.uart)
        by_cases hready : l.uart.gState = .ready
        · exact hl.start hready fun i hi => hcopying.copied i (by omega)
        · rw [halUartTransmitDma, if_neg hready]
          exact hl.ret_false l.response.bytes

/-- An interrupt during a call of the driver; a step that is accepted after the idle check
agrees with the response. -/
theorem InCall.irq {c : Config Link} (hcall : InCall c) (hl : Intact c.state.uart)
    (input : LinkInput)
    (hagree : ∀ currentPosition, input = .encoderStep currentPosition → ∀ k tail,
      c.code = (onUart (fromCopied c.state.response.bytes k)).seq tail →
      c.state.uart.gState = .ready →
        (FastStreamPacket.pack currentPosition).bytes <+: c.state.response.bytes) :
    InOrder (linkSystem.step (.irq input) c) := by
  have hintact := fun l (hl : Intact l.uart) => intact_stable input l hl
  have hresponse : ∀ l, (linkIrq input l).response = l.response :=
    fun l => response_stable l.response input l rfl
  cases hcall with
  | @lengthCheck l tail htail =>
      have hcall := InCall.lengthCheck (l := linkIrq input l) htail
      rw [hresponse] at hcall
      exact ⟨hintact l hl, .inr hcall⟩
  | @idleCheck l tail htail =>
      have hcall := InCall.idleCheck (l := linkIrq input l) htail
      rw [hresponse] at hcall
      exact ⟨hintact l hl, .inr hcall⟩
  | @copying l tail k htail hcopying =>
      have hcopying' : Copying (linkIrq input l).response.bytes k (linkIrq input l).uart := by
        rw [hresponse, linkIrq_uart]
        refine hcopying.irq fun frame hframe hready => ?_
        cases input with
        | encoderStep currentPosition =>
            obtain rfl := UartInput.preempt.inj hframe
            exact hagree currentPosition rfl k tail rfl hready
        | dmaRead => cases hframe
        | txComplete => cases hframe
      have hcall := InCall.copying (l := linkIrq input l) k htail hcopying'
      rw [hresponse] at hcall
      obtain ⟨f, next, hact⟩ := fromCopied_act l.response.bytes k tail
      rw [hact] at hcall ⊢
      exact ⟨hintact l hl, .inr hcall⟩

/-- Entering nothing changes nothing. -/
theorem InCall.enter {c : Config Link} (hcall : InCall c) (hl : Intact c.state.uart)
    (r : ReceivedByte) : InOrder (linkSystem.step (.enter r) c) := by
  cases hcall with
  | lengthCheck htail => exact ⟨hl, .inr (.lengthCheck htail)⟩
  | idleCheck htail => exact ⟨hl, .inr (.idleCheck htail)⟩
  | @copying l tail k htail hcopying =>
      have hcall := InCall.copying k htail hcopying
      obtain ⟨f, next, hact⟩ := fromCopied_act l.response.bytes k tail
      rw [hact] at hcall ⊢
      exact ⟨hl, .inr hcall⟩

/-- One event at the call of the driver. -/
theorem step_sendResponse {l : Link} {tail : Code Link} (e : Event LinkInput ReceivedByte)
    (htail : tail.Sectioned KeepsIntact (· = sendResponse)) (hl : Intact l.uart) :
    InOrder (linkSystem.step e ⟨sendResponse.seq tail, l⟩) := by
  have hwaits : (sendResponse.seq tail).Sectioned KeepsIntact (· = sendResponse) :=
    .marked rfl htail
  cases e with
  | main => exact ⟨hl, .inr (.lengthCheck htail)⟩
  | irq input => exact ⟨intact_stable input l hl, .inl hwaits⟩
  | enter r => exact ⟨hl, .inl hwaits⟩

/-- The transfers are intact in every state of a run whose steps agree. -/
theorem intact_run {schedule done rest : List (Event LinkInput ReceivedByte)}
    (hagree : StepsAgree schedule) (hsplit : schedule = done ++ rest) :
    Intact (linkSystem.run done linkStart).state.uart := by
  have hrun : InOrder (linkSystem.run done linkStart) := by
    refine and_or_left.mpr (System.run_sections (fun l : Link => Intact l.uart)
      (fun _ c => Intact c.state.uart ∧ InCall c) intact_stable
      (fun f (hf : KeepsIntact f) => hf) (fun _ r _ _ => .inl (onByteReceived_sectioned r))
      ?_ ?_ (.inl ⟨.of_idle Uart.idle_init, .done⟩) hsplit)
    · rintro done e - _ tail - rfl htail hcode hl
      generalize linkSystem.run done linkStart = c at hcode hl
      obtain ⟨code, l⟩ := c
      obtain rfl : code = sendResponse.seq tail := hcode
      exact and_or_left.mp (step_sendResponse e htail hl)
    · rintro done e rest heq ⟨hl, hcall⟩
      cases e with
      | main => exact and_or_left.mp (hcall.main hl)
      | irq input =>
          refine and_or_left.mp (hcall.irq hl input ?_)
          rintro currentPosition rfl
          exact hagree done currentPosition rest heq
      | enter r => exact and_or_left.mp (hcall.enter hl r)
  exact hrun.1

/-- In every run whose steps agree, the DMA sends for the calls of
`HAL_Telemetry_WriteBuffer` that returned true exactly the buffers of these
calls, one transfer each and in order. -/
theorem frames_survive (schedule : List (Event LinkInput ReceivedByte))
    (hagree : StepsAgree schedule) :
    let u := (linkSystem.run schedule linkStart).state.uart
    u.accepted = (u.finished ++ u.transfer.toList).map Transfer.frame ∧
    (∀ t ∈ u.finished, t.sent = t.frame) ∧
    ∀ t ∈ u.transfer, t.sent = t.frame.take t.sent.length := by
  have h := intact_run hagree (List.append_nil schedule).symm
  exact ⟨h.accepted_eq, h.finished_eq, fun t ht => (h.running t ht).sent_eq⟩

/-! ## Preemptions between the idle check and the start -/

/-- A received byte at position 0 of a stopped motor. -/
def received (incomingByte : Byte) : Event LinkInput ReceivedByte :=
  .enter ⟨incomingByte, 0, .stopped⟩

/-- A position request, up to the idle check of its response. -/
def requestSchedule : List (Event LinkInput ReceivedByte) :=
  [received syncByte] ++ List.replicate 3 .main ++ [received reqPosition] ++
    List.replicate 3 .main ++ [received (crc8Atm [reqPosition])] ++ List.replicate 10 .main

/-- The DMA sends a whole stream packet. -/
def sendStreamPacket : List (Event LinkInput ReceivedByte) :=
  List.replicate 4 (.irq .dmaRead) ++ [.irq .txComplete]

/-- Whether the step at a place of a schedule agrees, if there is one. -/
def agreesAt (schedule : List (Event LinkInput ReceivedByte)) (i : ℕ) : Bool :=
  let c := linkSystem.run (schedule.take i) linkStart
  match schedule[i]? with
  | some (.irq (.encoderStep currentPosition)) =>
      c.code.returned || c.state.uart.gState != .ready ||
        (FastStreamPacket.pack currentPosition).bytes.isPrefixOf c.state.response.bytes
  | _ => true

/-- A schedule can be checked step by step. -/
theorem stepsAgree_of_forall {schedule : List (Event LinkInput ReceivedByte)}
    (h : ∀ i < schedule.length, agreesAt schedule i = true) : StepsAgree schedule := by
  rintro before currentPosition after rfl c k tail hcode hready
  have hi := h before.length (by simp)
  have hplace : (before ++ .irq (.encoderStep currentPosition) :: after)[before.length]? =
      some (.irq (.encoderStep currentPosition)) := by simp
  obtain ⟨f, next, hact⟩ := fromCopied_act c.state.response.bytes k tail
  have hreturned : c.code.returned = false := by
    rw [hcode, hact]
    rfl
  rw [agreesAt, List.take_left, hplace] at hi
  simpa [hreturned, hready, c] using hi

/-- An accepted step that agrees with the response of position 0, a step during its
transfer, and a request during the transfer of a later step. -/
def agreeingSchedule : List (Event LinkInput ReceivedByte) :=
  requestSchedule ++ [.irq (.encoderStep 0)] ++ List.replicate 7 .main ++
    [.irq (.encoderStep 2)] ++ sendStreamPacket ++ [.irq (.encoderStep 1)] ++
    requestSchedule ++ List.replicate 2 .main ++ sendStreamPacket

/-- The accepted packets are sent whole; the other calls find the UART busy. -/
theorem frames_survive_agreeing :
    let u := (linkSystem.run agreeingSchedule linkStart).state.uart
    u.finished.map Transfer.sent = u.accepted ∧
      u.accepted = [(FastStreamPacket.pack 0).bytes, (FastStreamPacket.pack 1).bytes] ∧
      u.calls.length = 5 := by
  intro u
  obtain ⟨haccepted, hfinished, -⟩ :=
    frames_survive agreeingSchedule (stepsAgree_of_forall (by decide +kernel))
  refine ⟨?_, by decide +kernel, by decide +kernel⟩
  have hidle : u.transfer = none := by decide +kernel
  rw [haccepted, hidle, Option.toList_none, List.append_nil]
  exact List.map_congr_left hfinished

/-- A step right after the idle check starts a transfer, and the preempted call
stores its own packet over it: the stream packet of position 1 was accepted, and
other bytes were sent. -/
theorem stream_packet_spoiled :
    let u := (linkSystem.run (requestSchedule ++ [.irq (.encoderStep 1)] ++
      List.replicate 5 .main ++ sendStreamPacket) linkStart).state.uart
    u.accepted = [(FastStreamPacket.pack 1).bytes] ∧
    u.finished = [⟨[0x55, 0x00, 0x01, 0x07], [0x55, 0x00, 0x00, 0x00]⟩] := by
  decide +kernel

-- a step after four stores, sent before the preempted call goes on, spoils the response
example :
    let u := (linkSystem.run (requestSchedule ++ List.replicate 4 .main ++
      [.irq (.encoderStep 1)] ++ sendStreamPacket ++ List.replicate 2 .main ++
      List.replicate 5 (.irq .dmaRead) ++ [.irq .txComplete]) linkStart).state.uart
    u.finished.getLast? = some
      ⟨[0x55, 0x00, 0x00, 0x00, 0x00], [0x55, 0x00, 0x01, 0x07, 0x00]⟩ := by
  decide +kernel

end Telemetry
end MDCMotorControl
