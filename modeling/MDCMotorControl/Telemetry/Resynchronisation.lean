import MDCMotorControl.Telemetry.Requests

/-!
# Noise on the request line

The receiver looks for a sync byte, takes the next byte as a command and the one
after it as a checksum.  Noise can leave it in the middle of a frame that nobody
sent, and the frame then swallows bytes of a true request.  No byte of a request but
the first is a sync byte, so the receiver is waiting for one again when the request
is over.

Main results:

- Theorem `handed_sound`: a response is handed to the driver only on the last byte of
  a request.
- Theorem `waitSync_after_request`: after a request the receiver waits for a sync
  byte, whatever it was doing before.
- Theorem `parser_resynchronises`: after any noise at most the first of several
  requests is lost.
-/

namespace MDCMotorControl
namespace Telemetry

open Interruptible BigEndian

/-! ## What a byte makes the receive handler do -/

/-- The three bytes of a request. -/
def requestBytes : List Byte :=
  [syncByte, reqPosition, crc8Atm [reqPosition]]

/-- The buffers that the receive handler hands to `HAL_Telemetry_WriteBuffer` on an
event. -/
def handedBy (e : LineEvent) (l : Link) : List (List Byte) :=
  match e with
  | .byte r =>
      ((((appTelemetryOnByteReceived r).exec l).uart.calls).drop l.uart.calls.length).map Prod.fst
  | .stream _ => []

/-- The buffers that it hands over in a sequence of events. -/
def handed : List LineEvent → Link → List (List Byte)
  | [], _ => []
  | e :: es, l => handedBy e l ++ handed es (lineStep l e)

/-- A call of the driver is recorded once, with its buffer. -/
theorem write_calls (buffer : List Byte) (u : Uart) :
    ∃ result, ((halTelemetryWriteBuffer buffer).exec u).calls =
      u.calls ++ [(buffer, result)] := by
  have hmemcpy : ∀ (bytes : List Byte) (cell : ℕ) (u : Uart),
      ((memcpy cell bytes).exec u).calls = u.calls := by
    intro bytes
    induction bytes with
    | nil => exact fun _ _ => rfl
    | cons byte rest ih => exact fun cell u => ih (cell + 1) (store cell byte u)
  have hdma : ∀ u, ∃ result, (halUartTransmitDma buffer u).calls =
      u.calls ++ [(buffer, result)] := by
    intro u
    unfold halUartTransmitDma
    split
    · exact ⟨true, rfl⟩
    · exact ⟨false, rfl⟩
  rw [halTelemetryWriteBuffer, Code.exec_branch, Code.exec_branch, Code.exec_stmt,
    Code.exec_seq (memcpy_returns 0 buffer), Code.exec_stmt]
  split
  · exact ⟨false, rfl⟩
  · split
    · exact ⟨false, rfl⟩
    · obtain ⟨result, hresult⟩ := hdma ((memcpy 0 buffer).exec u)
      exact ⟨result, by rw [hresult, hmemcpy]⟩

/-- The last byte of a request makes it hand over the response. -/
theorem handedBy_recognised {r : ReceivedByte} {l : Link} (h : Recognised r l) :
    handedBy (.byte r) l = [r.response.bytes] := by
  obtain ⟨result, hcalls⟩ := write_calls r.response.bytes l.uart
  rw [handedBy, onByteReceived_recognised h, hcalls, List.drop_left]
  rfl

/-- No other byte does. -/
theorem handedBy_other {r : ReceivedByte} {l : Link} (h : ¬ Recognised r l) :
    handedBy (.byte r) l = [] := by
  rw [handedBy, onByteReceived_uart h, List.drop_length]
  rfl

/-- A response is handed over only on the last of the three bytes of a request. -/
theorem handed_sound {l : Link} (hinit : l.currentState = .waitSync) {events : List LineEvent}
    {r : ReceivedByte} (h : handedBy (.byte r) (lineRun events l) ≠ []) :
    ∃ earlier, receivedBytes events ++ [r.incomingByte] = earlier ++ requestBytes := by
  apply bytes_of_recognised hinit
  by_contra hother
  exact h (handedBy_other hother)

/-! ## The receiver -/

theorem not_recognised {r : ReceivedByte} {l : Link} (h : l.currentState ≠ .waitCrc) :
    ¬ Recognised r l :=
  fun hrec => h hrec.waiting

/-- The state that a byte leads to. -/
def RxState.next (incomingByte : Byte) : RxState → RxState
  | .waitSync => if incomingByte = syncByte then .waitCmd else .waitSync
  | .waitCmd => .waitCrc
  | .waitCrc => .waitSync

theorem currentState_byte (r : ReceivedByte) (l : Link) :
    (lineStep l (.byte r)).currentState = l.currentState.next r.incomingByte := by
  rw [lineStep]
  by_cases hrec : Recognised r l
  · rw [onByteReceived_recognised hrec, hrec.waiting]
    rfl
  · rw [onByteReceived_other hrec]
    cases hstate : l.currentState with
    | waitSync =>
        dsimp only [RxState.next]
        split
        · rfl
        · exact hstate
    | waitCmd => rfl
    | waitCrc => rfl

/-- The command is the byte after the sync byte. -/
theorem rxCmd_byte (r : ReceivedByte) {l : Link} (h : l.currentState = .waitCmd) :
    (lineStep l (.byte r)).rxCmd = r.incomingByte := by
  rw [lineStep, onByteReceived_other (not_recognised (by simp [h])), h]

/-- Events without a received byte leave the receiver alone and hand over nothing. -/
theorem quiet_run {es : List LineEvent} (h : receivedBytes es = []) (l : Link) :
    (lineRun es l).currentState = l.currentState ∧ (lineRun es l).rxCmd = l.rxCmd ∧
      handed es l = [] := by
  induction es generalizing l with
  | nil => exact ⟨rfl, rfl, rfl⟩
  | cons e es ih =>
      cases e with
      | byte r => exact absurd h (List.cons_ne_nil _ _)
      | stream e =>
          obtain ⟨hstate, hcmd⟩ := streamStep_receiver l e
          obtain ⟨ihstate, ihcmd, ihhanded⟩ := ih h (lineStep l (.stream e))
          exact ⟨ihstate.trans hstate, ihcmd.trans hcmd, ihhanded⟩

/-- The bytes received in a sequence of events, with what their handler reads. -/
def arrivals (events : List LineEvent) : List ReceivedByte :=
  events.filterMap fun
    | .byte r => some r
    | .stream _ => none

theorem receivedBytes_eq_map (es : List LineEvent) :
    receivedBytes es = (arrivals es).map ReceivedByte.incomingByte := by
  induction es with
  | nil => rfl
  | cons e es ih =>
      cases e with
      | byte r => exact congrArg (r.incomingByte :: ·) ih
      | stream e => exact ih

theorem arrivals_of_quiet {es : List LineEvent} (h : receivedBytes es = []) : arrivals es = [] := by
  rw [receivedBytes_eq_map] at h
  exact List.map_eq_nil_iff.mp h

/-- A sequence of events from `l` reaches its first received byte at `l'`. -/
structure FirstByte (es : List LineEvent) (b : Byte) (rest : List Byte) (l l' : Link)
    (r : ReceivedByte) (later : List LineEvent) : Prop where
  state : l'.currentState = l.currentState
  cmd : l'.rxCmd = l.rxCmd
  byte : r.incomingByte = b
  rest_eq : receivedBytes later = rest
  received_eq : arrivals es = r :: arrivals later
  run_eq : lineRun es l = lineRun later (lineStep l' (.byte r))
  handed_eq : handed es l = handedBy (.byte r) l' ++ handed later (lineStep l' (.byte r))

theorem exists_firstByte {es : List LineEvent} {b : Byte} {rest : List Byte}
    (h : receivedBytes es = b :: rest) (l : Link) :
    ∃ l' r later, FirstByte es b rest l l' r later := by
  induction es generalizing l with
  | nil => exact absurd h (List.cons_ne_nil _ _).symm
  | cons e es ih =>
      cases e with
      | byte r =>
          obtain ⟨hbyte, hrest⟩ := List.cons.inj h
          exact ⟨l, r, es, rfl, rfl, hbyte, hrest, rfl, rfl, rfl⟩
      | stream e =>
          obtain ⟨hstate, hcmd⟩ := streamStep_receiver l e
          obtain ⟨l', r, later, hfirst⟩ := ih h (lineStep l (.stream e))
          exact ⟨l', r, later, hfirst.state.trans hstate, hfirst.cmd.trans hcmd, hfirst.byte,
            hfirst.rest_eq, hfirst.received_eq, hfirst.run_eq, hfirst.handed_eq⟩

/-! ## One request -/

section

variable {request : List LineEvent}

/-- After a request the receiver waits for a sync byte, whatever it was doing before:
the second and the third byte of a request are not sync bytes. -/
theorem waitSync_after_request (h : receivedBytes request = requestBytes) (l : Link) :
    (lineRun request l).currentState = .waitSync := by
  obtain ⟨l₀, r₀, es₁, h₀⟩ := exists_firstByte h l
  obtain ⟨l₁, r₁, es₂, h₁⟩ := exists_firstByte h₀.rest_eq (lineStep l₀ (.byte r₀))
  obtain ⟨l₂, r₂, es₃, h₂⟩ := exists_firstByte h₁.rest_eq (lineStep l₁ (.byte r₁))
  rw [h₀.run_eq, h₁.run_eq, h₂.run_eq, (quiet_run h₂.rest_eq _).1, currentState_byte, h₂.state,
    currentState_byte, h₁.state, currentState_byte, h₀.state, h₀.byte, h₁.byte, h₂.byte]
  cases l.currentState <;> decide +kernel

/-- The request makes the handler hand over one response, on the last byte. -/
def AnsweredOnce (request : List LineEvent) (l : Link) : Prop :=
  ∃ r, (arrivals request).getLast? = some r ∧ handed request l = [r.response.bytes]

/-- A request to a receiver that waits for a sync byte is answered once. -/
theorem answeredOnce_of_waitSync (h : receivedBytes request = requestBytes) {l : Link}
    (hstart : l.currentState = .waitSync) : AnsweredOnce request l := by
  obtain ⟨l₀, r₀, es₁, h₀⟩ := exists_firstByte h l
  obtain ⟨l₁, r₁, es₂, h₁⟩ := exists_firstByte h₀.rest_eq (lineStep l₀ (.byte r₀))
  obtain ⟨l₂, r₂, es₃, h₂⟩ := exists_firstByte h₁.rest_eq (lineStep l₁ (.byte r₁))
  have hstate₀ : l₀.currentState = .waitSync := h₀.state.trans hstart
  have hstate₁ : l₁.currentState = .waitCmd := by
    rw [h₁.state, currentState_byte, hstate₀, h₀.byte]
    rfl
  have hstate₂ : l₂.currentState = .waitCrc := by
    rw [h₂.state, currentState_byte, hstate₁]
    rfl
  have hcmd : l₂.rxCmd = reqPosition := by
    rw [h₂.cmd, rxCmd_byte r₁ hstate₁, h₁.byte]
  have hrecognised : Recognised r₂ l₂ := ⟨hstate₂, hcmd, by rw [hcmd, h₂.byte]⟩
  have hnot₀ : ¬ Recognised r₀ l₀ := not_recognised (by simp [hstate₀])
  have hnot₁ : ¬ Recognised r₁ l₁ := not_recognised (by simp [hstate₁])
  refine ⟨r₂, ?_, ?_⟩
  · rw [h₀.received_eq, h₁.received_eq, h₂.received_eq, arrivals_of_quiet h₂.rest_eq]
    rfl
  · rw [h₀.handed_eq, handedBy_other hnot₀, h₁.handed_eq, handedBy_other hnot₁, h₂.handed_eq,
      handedBy_recognised hrecognised, (quiet_run h₂.rest_eq _).2.2]
    rfl

end

/-! ## Noise and requests -/

theorem waitSync_after_requests {requests : List (List LineEvent)}
    (hrequests : ∀ q ∈ requests, receivedBytes q = requestBytes) {l : Link}
    (h : requests ≠ [] ∨ l.currentState = .waitSync) :
    (lineRun requests.flatten l).currentState = .waitSync := by
  induction requests generalizing l with
  | nil => exact h.resolve_left (not_not.mpr rfl)
  | cons q qs ih =>
      rw [List.flatten_cons, lineRun_append]
      apply ih fun q' hq' => hrequests q' (List.mem_cons_of_mem q hq')
      exact .inr (waitSync_after_request (hrequests q List.mem_cons_self) l)

/-- From a receiver that waits for a sync byte on, through any events before any
number of consecutive requests: a response is handed over only on a byte that, with
the two before it, makes a request; every request but the first is answered once; and
so is the first if the events before it leave the receiver waiting for a sync byte. -/
theorem parser_resynchronises {l : Link} (hinit : l.currentState = .waitSync) :
    (∀ (events : List LineEvent) (r : ReceivedByte),
      handedBy (.byte r) (lineRun events l) ≠ [] →
      ∃ earlier, receivedBytes events ++ [r.incomingByte] = earlier ++ requestBytes) ∧
    ∀ (noise : List LineEvent) (requests : List (List LineEvent)),
      (∀ q ∈ requests, receivedBytes q = requestBytes) →
      ∀ i q, requests[i]? = some q →
        (1 ≤ i ∨ (lineRun noise l).currentState = .waitSync) →
        AnsweredOnce q (lineRun (noise ++ (requests.take i).flatten) l) := by
  refine ⟨fun events r h => handed_sound hinit h, fun noise requests hrequests i q hq hi => ?_⟩
  apply answeredOnce_of_waitSync (hrequests q (List.mem_of_getElem? hq))
  rw [lineRun_append]
  apply waitSync_after_requests fun q' hq' => hrequests q' (List.mem_of_mem_take hq')
  rcases hi with hpos | hsync
  · left
    have hlt := (List.getElem?_eq_some_iff.mp hq).1
    intro hnil
    have hlength := congrArg List.length hnil
    rw [List.length_take, List.length_nil] at hlength
    omega
  · exact .inr hsync

/-- A request, received without anything in between. -/
def plainRequest : List LineEvent :=
  requestStart ++ [.byte requestEnd]

/-- After a lone sync byte the first request is lost and the second is answered. -/
theorem parser_resynchronises_sync :
    AnsweredOnce plainRequest
      (lineRun ([.byte ⟨syncByte, 0, .stopped⟩] ++ plainRequest) Link.init) := by
  have hrequests : ∀ q ∈ [plainRequest, plainRequest], receivedBytes q = requestBytes := by
    intro q hq
    obtain rfl : q = plainRequest := by simpa using hq
    rfl
  have hanswered := (parser_resynchronises (l := Link.init) rfl).2
    [.byte ⟨syncByte, 0, .stopped⟩] [plainRequest, plainRequest] hrequests 1 plainRequest rfl
    (.inl le_rfl)
  simpa using hanswered

end Telemetry
end MDCMotorControl
