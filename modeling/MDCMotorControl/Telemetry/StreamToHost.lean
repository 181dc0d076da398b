import MDCMotorControl.Telemetry.HostDecoder
import MDCMotorControl.Telemetry.StreamFreshness

/-!
# The stream from the encoder to the host

A step interrupt reads the encoder counter, and hands a packet to the driver when the
reading differs from the one before.  The driver takes the packet if the UART is idle, the
DMA sends it, and `com_test.py` decodes it and watches for positions left out.

Main results:

- Theorem `isValidStep_iff`: the test of the host is that two positions are neighbours on
  the circle of the encoder.
- Theorem `stream_reaches_host`: the host decodes exactly the readings that the driver took,
  and counts exactly the gaps between them; none as long as the encoder moves by single
  steps and no packet is refused.
-/

namespace MDCMotorControl
namespace Telemetry

open BigEndian

/-! ## The sending side -/

/-- The readings of the step interrupts. -/
def readings (events : List StreamEvent) : List (BitVec 16) :=
  events.filterMap fun e =>
    match e with
    | .step currentPos => some currentPos
    | _ => none

/-- The reading of an interrupt that hands a packet to the driver. -/
def changedStep (l : Link) : StreamEvent → Option (BitVec 16)
  | .step currentPos => if currentPos ≠ l.lastSentPos then some currentPos else none
  | _ => none

/-- The reading of an interrupt whose packet the driver takes. -/
def acceptedStep (l : Link) (e : StreamEvent) : Option (BitVec 16) :=
  (changedStep l e).filter fun _ => l.uart.gState = .ready

/-- The readings of a run for which something holds at their time. -/
def stepsWith (step : Link → StreamEvent → Option (BitVec 16)) :
    Link → List StreamEvent → List (BitVec 16)
  | _, [] => []
  | l, e :: es => (step l e).toList ++ stepsWith step (streamStep l e) es

/-- The bytes that the UART has sent. -/
def Uart.sentBytes (u : Uart) : List Byte :=
  u.finished.flatMap Transfer.sent

theorem accepted_step (l : Link) (e : StreamEvent) :
    (streamStep l e).uart.accepted =
      l.uart.accepted ++
        (acceptedStep l e).toList.map fun p => (FastStreamPacket.pack p).bytes := by
  cases e with
  | dmaRead =>
      rcases dmaRead_cases l.uart with hsame | ⟨t, -, -, hread⟩
      · simp [streamStep, hsame, acceptedStep, changedStep]
      · simp [streamStep, hread, acceptedStep, changedStep, Uart.accepted]
  | txComplete =>
      rcases txComplete_cases l.uart with hsame | ⟨t, -, -, hcomplete⟩
      · simp [streamStep, hsame, acceptedStep, changedStep]
      · simp [streamStep, hcomplete, acceptedStep, changedStep, Uart.accepted]
  | step currentPos =>
      by_cases hchange : currentPos = l.lastSentPos
      · rw [streamStep, exti95IrqHandler_same hchange]
        simp [acceptedStep, changedStep, hchange]
      · rw [streamStep, exti95IrqHandler_uart hchange]
        by_cases hready : l.uart.gState = .ready
        · simp only [acceptedStep, changedStep, ne_eq, hchange, not_false_eq_true, if_true,
            Option.filter_some, hready, decide_true]
          exact Uart.accepted_ret_true _ _
        · simp only [acceptedStep, changedStep, ne_eq, hchange, not_false_eq_true, if_true,
            Option.filter_some, hready, decide_false]
          simpa using Uart.accepted_ret_false _ _

/-- The packets taken in a run. -/
theorem accepted_run (l : Link) (events : List StreamEvent) :
    (streamRun events l).uart.accepted =
      l.uart.accepted ++
        (stepsWith acceptedStep l events).map fun p => (FastStreamPacket.pack p).bytes := by
  induction events generalizing l with
  | nil => simp [streamRun, stepsWith]
  | cons e es ih =>
      rw [stepsWith, List.map_append, ← List.append_assoc, ← accepted_step l e]
      exact ih (streamStep l e)

/-- With the UART idle again, the line has carried the packets taken. -/
theorem sentBytes_run {l : Link} (hinit : l.uart.Idle) {events : List StreamEvent}
    (hready : (streamRun events l).uart.gState = .ready) :
    (streamRun events l).uart.sentBytes =
      lineBytes ((stepsWith acceptedStep l events).map .stream) := by
  have hrun := (Intact.of_idle hinit).streamRun events
  have haccepted := hrun.accepted_eq
  rw [hrun.ready_iff.mp hready, accepted_run l] at haccepted
  have hnone : l.uart.accepted = [] := by simp [Uart.accepted, hinit.calls]
  have hsent : (streamRun events l).uart.finished.map Transfer.sent =
      (streamRun events l).uart.finished.map Transfer.frame :=
    List.map_congr_left hrun.finished_eq
  rw [hnone, List.nil_append, Option.toList_none, List.append_nil] at haccepted
  rw [Uart.sentBytes, List.flatMap_def, hsent, ← haccepted, lineBytes, List.flatMap_map,
    List.flatMap_def]
  rfl

/-! ## The receiving side -/

/-- The passes of the loop over stream packets back to back. -/
def streamPasses (place : ℕ) : List (BitVec 16) → List LoopPass
  | [] => []
  | p :: ps => .packet place p :: streamPasses (place + 4) ps

theorem loopPasses_stream (place : ℕ) (ps : List (BitVec 16)) :
    loopPasses place (lineBytes (ps.map .stream)) = streamPasses place ps := by
  induction ps generalizing place with
  | nil => rfl
  | cons p ps ih =>
      rw [List.map_cons, lineBytes_stream, loopPasses, if_pos rfl, if_pos rfl,
        wordOf_hiByte_loByte, ih, streamPasses]

theorem streamPasses_output (place : ℕ) (ps : List (BitVec 16)) :
    ((streamPasses place ps).filterMap LoopPass.output).map Prod.snd = ps := by
  induction ps generalizing place with
  | nil => rfl
  | cons p ps ih => simp [streamPasses, LoopPass.output, ih]

/-- The gaps that the host counts after a position. -/
def skips : Option (BitVec 16) → List (BitVec 16) → ℕ
  | _, [] => 0
  | last, p :: ps =>
      (if last.any fun lastPos => !isValidStep lastPos p && p != lastPos then 1 else 0) +
        skips (some p) ps

theorem foldl_update_stream (place : ℕ) (ps : List (BitVec 16)) (s : Tracking) :
    (streamPasses place ps).foldl Tracking.update s =
      { lastPos := ps.getLast?.or s.lastPos
        packetsReceived := s.packetsReceived + ps.length
        errorsCrc := s.errorsCrc
        errorsSkipped := s.errorsSkipped + skips s.lastPos ps } := by
  induction ps generalizing place s with
  | nil => simp [streamPasses, skips]
  | cons p ps ih =>
      rw [streamPasses, List.foldl_cons, ih]
      simp only [Tracking.update, skips, List.length_cons, List.getLast?_cons]
      congr 1
      · cases ps.getLast? <;> simp
      · omega
      · split <;> omega

/-! ## The circle of the encoder -/

/-- The position after another one: the counter runs from 0 to 14399. -/
def stepUp (p : BitVec 16) : BitVec 16 :=
  if p = 14399 then 0 else p + 1

/-- Two positions of the encoder that are neighbours. -/
def OneStep (p q : BitVec 16) : Prop :=
  q = stepUp p ∨ p = stepUp q

theorem stepUp_toNat {p : BitVec 16} (h : p ≤ 14399) :
    (stepUp p).toNat = if p.toNat = 14399 then 0 else p.toNat + 1 := by
  have hle : p.toNat ≤ 14399 := h
  unfold stepUp
  by_cases hp : p = 14399
  · rw [if_pos hp, if_pos (by rw [hp]; rfl)]
    rfl
  · have hne : p.toNat ≠ 14399 := fun heq => hp (BitVec.eq_of_toNat_eq heq)
    rw [if_neg hp, if_neg hne, BitVec.toNat_add]
    exact Nat.mod_eq_of_lt (by simp; omega)

/-- The test of the host on two positions of the encoder. -/
theorem isValidStep_iff {p q : BitVec 16} (hp : p ≤ 14399) (hq : q ≤ 14399) :
    isValidStep p q = true ↔ OneStep p q := by
  have hp' : p.toNat ≤ 14399 := hp
  have hq' : q.toNat ≤ 14399 := hq
  have hup : q = stepUp p ↔ q.toNat = if p.toNat = 14399 then 0 else p.toNat + 1 := by
    rw [← stepUp_toNat hp, BitVec.toNat_inj]
  have hdown : p = stepUp q ↔ p.toNat = if q.toNat = 14399 then 0 else q.toNat + 1 := by
    rw [← stepUp_toNat hq, BitVec.toNat_inj]
  rw [OneStep, hup, hdown]
  simp only [isValidStep, Bool.or_eq_true, decide_eq_true_eq]
  simp only [maxPos]
  split <;> split <;> omega

/-- The encoder moves by single steps, or not at all, from one reading to the next. -/
def Walk (ps : List (BitVec 16)) : Prop :=
  (∀ p ∈ ps, p ≤ 14399) ∧ ps.IsChain fun p q => q = p ∨ OneStep p q

theorem OneStep.ne {p q : BitVec 16} (h : OneStep p q) : q ≠ p := by
  rintro rfl
  have hstep : q = stepUp q := h.elim id id
  unfold stepUp at hstep
  split at hstep <;> bv_omega

/-- The readings that differ from the one before. -/
def changes : BitVec 16 → List (BitVec 16) → List (BitVec 16)
  | _, [] => []
  | last, p :: ps => if p ≠ last then p :: changes p ps else changes last ps

theorem stepsWith_changedStep (l : Link) (events : List StreamEvent) :
    stepsWith changedStep l events = changes l.lastSentPos (readings events) := by
  induction events generalizing l with
  | nil => rfl
  | cons e es ih =>
      cases e with
      | step currentPos =>
          rw [stepsWith, ih, streamStep, exti95IrqHandler_lastSentPos]
          by_cases hchange : currentPos = l.lastSentPos
          · simp [changedStep, readings, changes, hchange]
          · simp [changedStep, readings, changes, hchange]
      | dmaRead =>
          rw [stepsWith, ih]
          rfl
      | txComplete =>
          rw [stepsWith, ih]
          rfl

/-- Along a walk the changes are single steps. -/
theorem isChain_changes {p : BitVec 16} {ps : List (BitVec 16)}
    (h : (p :: ps).IsChain fun p q => q = p ∨ OneStep p q) :
    (p :: changes p ps).IsChain OneStep := by
  induction ps generalizing p with
  | nil => exact List.isChain_singleton p
  | cons q ps ih =>
      obtain ⟨hstep, hrest⟩ := List.isChain_cons_cons.mp h
      rcases hstep with rfl | hstep
      · rw [changes, if_neg (not_not.mpr rfl)]
        exact ih hrest
      · rw [changes, if_pos hstep.ne]
        exact List.isChain_cons_cons.mpr ⟨hstep, ih hrest⟩

theorem mem_of_mem_changes {last p : BitVec 16} {ps : List (BitVec 16)}
    (h : p ∈ changes last ps) : p ∈ ps := by
  induction ps generalizing last with
  | nil => exact absurd h List.not_mem_nil
  | cons q ps ih =>
      rw [changes] at h
      split at h
      · rcases List.mem_cons.mp h with rfl | hmem
        · exact List.mem_cons_self
        · exact List.mem_cons_of_mem _ (ih hmem)
      · exact List.mem_cons_of_mem _ (ih h)

/-- The host counts no gap between neighbours. -/
theorem skips_of_isChain {p : BitVec 16} {ps : List (BitVec 16)}
    (hle : ∀ q ∈ p :: ps, q ≤ 14399) (h : (p :: ps).IsChain OneStep) :
    skips (some p) ps = 0 := by
  induction ps generalizing p with
  | nil => rfl
  | cons q ps ih =>
      obtain ⟨hstep, hrest⟩ := List.isChain_cons_cons.mp h
      have hvalid : isValidStep p q = true :=
        (isValidStep_iff (hle p List.mem_cons_self) (hle q (by simp))).mpr hstep
      rw [skips, ih (fun r hr => hle r (List.mem_cons_of_mem _ hr)) hrest]
      simp [hvalid]

theorem Walk.skips {ps : List (BitVec 16)} (h : Walk ps) (last : BitVec 16) :
    skips none (changes last ps) = 0 := by
  cases ps with
  | nil => rfl
  | cons p ps =>
      have hchain := isChain_changes h.2
      have hle : ∀ q ∈ p :: changes p ps, q ≤ 14399 := fun q hq =>
        h.1 q (List.mem_cons.mpr ((List.mem_cons.mp hq).imp_right mem_of_mem_changes))
      have hzero := skips_of_isChain hle hchain
      by_cases hp : p = last
      · subst hp
        rw [changes, if_neg (not_not.mpr rfl)]
        cases hchanges : changes p ps with
        | nil => rfl
        | cons q qs =>
            rw [hchanges] at hle hchain
            have hrest := skips_of_isChain (fun r hr => hle r (List.mem_cons_of_mem _ hr))
              (List.isChain_cons_cons.mp hchain).2
            simp [Telemetry.skips, hrest]
      · rw [changes, if_pos hp, Telemetry.skips, hzero]
        rfl

/-! ## Main result -/

/-- From an idle UART, over any sequence of step interrupts, DMA reads and completions that
leaves the UART idle: the host decodes exactly the readings whose packets the driver took,
in order, finds no wrong checksum, and counts exactly the gaps between them.  If the
encoder moved by single steps between its interrupts and the driver took every change, it
counts none. -/
theorem stream_reaches_host (l : Link) (hinit : l.uart.Idle) (events : List StreamEvent)
    (hready : (streamRun events l).uart.gState = .ready) :
    let taken := stepsWith acceptedStep l events
    let line := (streamRun events l).uart.sentBytes
    (decoded 0 line).map Prod.snd = taken ∧
      tracking line = ⟨taken.getLast?, taken.length, 0, skips none taken⟩ ∧
      (Walk (readings events) → taken = stepsWith changedStep l events →
        (tracking line).errorsSkipped = 0) := by
  intro taken line
  have hline : line = lineBytes (taken.map .stream) := sentBytes_run hinit hready
  have htracking : tracking line = ⟨taken.getLast?, taken.length, 0, skips none taken⟩ := by
    rw [hline, tracking, loopPasses_stream, foldl_update_stream]
    simp
  refine ⟨?_, htracking, fun hwalk hall => ?_⟩
  · rw [hline, decoded, loopPasses_stream, streamPasses_output]
  · rw [htracking, hall, stepsWith_changedStep]
    exact hwalk.skips _

/-- Two steps over the end of the circle, one packet after the other. -/
def rollover : List StreamEvent :=
  [14399, 0].flatMap fun currentPos => .step currentPos :: sendPacket

theorem rollover_taken : (streamRun rollover Link.init).uart.gState = .ready ∧
    stepsWith acceptedStep Link.init rollover = stepsWith changedStep Link.init rollover := by
  decide +kernel

theorem walk_rollover : Walk (readings rollover) := by
  have hreadings : readings rollover = [14399, 0] := by decide +kernel
  rw [hreadings]
  exact ⟨by simp, by simp [OneStep, stepUp]⟩

theorem stream_reaches_host_rollover :
    (tracking (streamRun rollover Link.init).uart.sentBytes).errorsSkipped = 0 :=
  (stream_reaches_host Link.init Uart.idle_init rollover rollover_taken.1).2.2
    walk_rollover rollover_taken.2

end Telemetry
end MDCMotorControl
