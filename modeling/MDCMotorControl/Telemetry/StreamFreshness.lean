import MDCMotorControl.Telemetry.Link

/-!
# Freshness of the streamed position

The step interrupt remembers the counter value it saw and streams it when it
differs from the one before.  The driver drops the packet when a transfer is
running, and nobody sends it again.

Main results:

- Theorem `fresh_run`: from the acceptance of a packet until the counter changes
  again, the stream carries that position or is about to.
- Theorem `streamed_of_change_accepted`: when the last change of the counter found
  the UART idle, the last packet sent carries the position of the last step.
- Theorem `stale_after_dropped_step`: a step during a transfer is not streamed.
-/

namespace MDCMotorControl
namespace Telemetry

open BigEndian

/-! ## Runs of the stream -/

/-- What happens while the stream is active and nobody asks for the position. -/
inductive StreamEvent where
  | step (currentPos : BitVec 16)
  | dmaRead
  | txComplete
deriving DecidableEq, Repr

/-- One event. -/
def streamStep : Link → StreamEvent → Link
  | l, .step currentPos => exti95IrqHandler currentPos l
  | l, .dmaRead => l.withUart (dmaRead l.uart)
  | l, .txComplete => l.withUart (txComplete l.uart)

/-- A sequence of events. -/
def streamRun (events : List StreamEvent) (l : Link) : Link :=
  events.foldl streamStep l

theorem streamRun_append (es fs : List StreamEvent) (l : Link) :
    streamRun (es ++ fs) l = streamRun fs (streamRun es l) :=
  List.foldl_append

/-- The position in the last packet that was sent completely. -/
def Link.lastStreamed (l : Link) : Option (BitVec 16) :=
  l.uart.finished.getLast?.bind fun t => streamedPosition t.sent

/-! ## Nothing disturbs the stream -/

/-- What a step interrupt does to the UART when the counter changed. -/
theorem exti95IrqHandler_uart {l : Link} {currentPos : BitVec 16}
    (hchange : currentPos ≠ l.lastSentPos) :
    (exti95IrqHandler currentPos l).uart =
      let packet := (FastStreamPacket.pack currentPos).bytes
      if l.uart.gState = .ready then l.uart.started packet else l.uart.ret packet false := by
  have hlen : (FastStreamPacket.pack currentPos).bytes.length ≤ txBufferSize := by
    rw [FastStreamPacket.length_bytes]
    decide
  rw [exti95IrqHandler_changed hchange]
  show (halTelemetryWriteBuffer _).exec l.uart = _
  rw [exec_write]
  simp only [hlen, true_and]

theorem exti95IrqHandler_lastSentPos (currentPos : BitVec 16) (l : Link) :
    (exti95IrqHandler currentPos l).lastSentPos = currentPos := by
  by_cases h : currentPos = l.lastSentPos
  · rw [exti95IrqHandler_same h, h]
  · rw [exti95IrqHandler_changed h]
    rfl

/-- One event keeps the transfers intact: nobody writes while the DMA reads. -/
theorem Intact.streamStep {l : Link} (h : Intact l.uart) (e : StreamEvent) :
    Intact (streamStep l e).uart := by
  cases e with
  | dmaRead => exact h.dmaRead
  | txComplete => exact h.txComplete
  | step currentPos =>
      by_cases hchange : currentPos = l.lastSentPos
      · rwa [Telemetry.streamStep, exti95IrqHandler_same hchange]
      · rw [Telemetry.streamStep, exti95IrqHandler_changed hchange]
        exact h.exec_write _

theorem Intact.streamRun {l : Link} (h : Intact l.uart) (events : List StreamEvent) :
    Intact (streamRun events l).uart := by
  induction events generalizing l with
  | nil => exact h
  | cons e es ih => exact ih (h.streamStep e)

/-! ## Freshness -/

/-- The stream carries the position, or is about to. -/
structure Fresh (p : BitVec 16) (l : Link) : Prop where
  lastSentPos : l.lastSentPos = p
  sending : ∀ t ∈ l.uart.transfer, t.frame = (FastStreamPacket.pack p).bytes
  streamed : l.uart.transfer = none → l.lastStreamed = some p

/-- An accepted step makes the stream fresh. -/
theorem Fresh.of_accepted {l : Link} (hidle : l.uart.gState = .ready) {p : BitVec 16}
    (hchange : p ≠ l.lastSentPos) : Fresh p (exti95IrqHandler p l) := by
  have huart := exti95IrqHandler_uart hchange
  simp only [if_pos hidle] at huart
  refine ⟨exti95IrqHandler_lastSentPos p l, ?_, ?_⟩
  · rw [huart]
    intro t ht
    obtain rfl : (⟨_, []⟩ : Transfer) = t := Option.some.inj ht
    rfl
  · rw [huart]
    intro hnone
    cases hnone

/-- The stream stays fresh as long as the counter does not change. -/
theorem Fresh.step {l : Link} {p : BitVec 16} (h : Fresh p l) (hl : Intact l.uart)
    {e : StreamEvent} (he : ∀ q, e = .step q → q = p) : Fresh p (streamStep l e) := by
  cases e with
  | step q =>
      have hsame : q = l.lastSentPos := (he q rfl).trans h.lastSentPos.symm
      rwa [streamStep, exti95IrqHandler_same hsame]
  | dmaRead =>
      rcases dmaRead_cases l.uart with hsame | ⟨t, ht, -, hread⟩
      · rwa [streamStep, hsame]
      · rw [streamStep, hread]
        refine ⟨h.lastSentPos, fun t' ht' => ?_, by simp⟩
        obtain rfl := Option.some.inj ht'
        exact h.sending t ht
  | txComplete =>
      rcases txComplete_cases l.uart with hsame | ⟨t, ht, hlen, hcomplete⟩
      · rwa [streamStep, hsame]
      · rw [streamStep, hcomplete]
        refine ⟨h.lastSentPos, by simp, fun _ => ?_⟩
        have hsent : t.sent = (FastStreamPacket.pack p).bytes := by
          have hflight := (hl.running t ht).sent_eq
          rw [hlen, List.take_length] at hflight
          exact hflight.trans (h.sending t ht)
        simp [Link.lastStreamed, hsent, streamedPosition_pack]

/-- From an accepted change on, the stream is fresh until the counter changes. -/
theorem fresh_run {l : Link} {p : BitVec 16} (h : Fresh p l) (hl : Intact l.uart)
    {events : List StreamEvent} (hevents : ∀ q, .step q ∈ events → q = p) :
    Fresh p (streamRun events l) := by
  induction events generalizing l with
  | nil => exact h
  | cons e es ih =>
      refine ih (h.step hl fun q he => hevents q ?_) (hl.streamStep e) fun q hq => hevents q ?_
      · exact he ▸ List.mem_cons_self
      · exact List.mem_cons_of_mem e hq

/-- From an idle UART, through any sequence of steps, DMA reads and completions:
when the last step that changed the counter value found the UART idle, then at
every later moment when the UART is idle the last packet sent carries the
position of the last step. -/
theorem streamed_of_change_accepted (l : Link) (hinit : l.uart.Idle)
    (before after : List StreamEvent) (currentPos : BitVec 16)
    (hchange : currentPos ≠ (streamRun before l).lastSentPos)
    (hidle : (streamRun before l).uart.gState = .ready)
    (hafter : ∀ q, .step q ∈ after → q = currentPos) :
    let l' := streamRun (before ++ .step currentPos :: after) l
    l'.uart.gState = .ready → l'.lastStreamed = some currentPos := by
  have hbefore : Intact (streamRun before l).uart := (Intact.of_idle hinit).streamRun before
  have hstep := hbefore.streamStep (.step currentPos)
  have hfresh := fresh_run (.of_accepted hidle hchange) hstep hafter
  have hrun := hstep.streamRun after
  have heq : streamRun (before ++ .step currentPos :: after) l =
      streamRun after (streamStep (streamRun before l) (.step currentPos)) :=
    streamRun_append before _ l
  intro l' hready
  rw [show l' = _ from heq] at hready ⊢
  exact hfresh.streamed (hrun.ready_iff.mp hready)

/-- One packet on its way. -/
def sendPacket : List StreamEvent :=
  List.replicate 4 .dmaRead ++ [.txComplete]

/-- Two steps, the second after the packet of the first. -/
theorem streamed_of_change_accepted_two :
    (streamRun ([.step 1] ++ sendPacket ++ .step 2 :: (sendPacket ++ [.step 2]))
      Link.init).lastStreamed = some 2 := by
  have hchange : (2 : BitVec 16) ≠ (streamRun ([.step 1] ++ sendPacket) Link.init).lastSentPos := by
    decide +kernel
  have hidle : (streamRun ([.step 1] ++ sendPacket) Link.init).uart.gState = .ready := by
    decide +kernel
  have hafter : ∀ q, .step q ∈ sendPacket ++ [.step 2] → q = 2 := by simp [sendPacket]
  refine streamed_of_change_accepted Link.init Uart.idle_init _ _ 2 hchange hidle hafter ?_
  decide +kernel

/-- A step that comes while the packet of the one before is being sent: the UART
becomes idle again, and the last packet sent carries the older position. -/
theorem stale_after_dropped_step :
    let l := streamRun ([.step 1, .step 2] ++ sendPacket) Link.init
    l.uart.gState = .ready ∧ l.lastSentPos = 2 ∧ l.lastStreamed = some 1 := by
  decide +kernel

end Telemetry
end MDCMotorControl
