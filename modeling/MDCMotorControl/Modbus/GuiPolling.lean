import MDCMotorControl.Modbus.CycleRegisters

/-!
# The telemetry poll of the GUI

`modbus_gui_flash.py` polls four registers every 500 ms and puts the cycle time into its
graph when the heartbeat has changed.  A heartbeat of zero it takes for no revolution yet.
The heartbeat is a counter of 16 bits, so it is zero again after 65536 revolutions.

Main results:

- Theorem `appends_iff`: a poll puts a sample into the graph exactly when its heartbeat
  differs from that of the poll before and is not zero.
- Theorem `revolutions_recorded_iff`: the graph follows the revolutions of a run exactly
  when no poll finds, after new revolutions, their number at a multiple of 65536.
-/

namespace MDCMotorControl
namespace Modbus

open Motor Settings BigEndian Encoder

/-! ## The GUI -/

/-- The two colours of a round indicator. -/
inductive LedFill where
  | gray30
  | limeGreen
deriving DecidableEq

/-- The calls to the toolkit other than the texts and the indicator of the motor state. -/
inductive GuiCall where
  | blinkEncLed
  | blinkCycleLed
  | blinkCounterLed
  | updateGraph
  | showError (title text : String)
  /-- `root.after` with `poll_telemetry`. -/
  | afterPoll (ms : ℕ)
deriving DecidableEq

/-- The fields of `MotorControlApp` that the poll reads and writes. -/
structure Gui where
  isConnected : Bool
  lastEncPos : ℤ
  lastCycleTime : ℤ
  /-- The attribute is missing before the first poll. -/
  lastCycleCounter : Option ℤ
  cycleHistory : List (BitVec 16)
  lblEncPos : String
  lblMotorState : String
  lblCycleTime : String
  lblCycleCount : String
  ledState : LedFill
  calls : List GuiCall
deriving DecidableEq

/-- `__init__` and `build_ui`. -/
def initialGui : Gui where
  isConnected := false
  lastEncPos := -1
  lastCycleTime := -1
  lastCycleCounter := none
  cycleHistory := []
  lblEncPos := "0"
  lblMotorState := "UNKNOWN"
  lblCycleTime := "0 ms"
  lblCycleCount := "0"
  ledState := .gray30
  calls := []

/-- `MOTOR_STATES`. -/
def motorStates : List String :=
  ["STOPPED", "ACCELERATING", "CRUISING", "DECELERATING"]

/-- What `read_holding_registers` comes back with. -/
inductive PollResponse where
  | raised
  | error
  | registers (values : List (BitVec 16))
deriving DecidableEq

namespace Gui

/-- Make a call to the toolkit. -/
def call (c : GuiCall) (g : Gui) : Gui :=
  { g with calls := g.calls ++ [c] }

/-- `update_state_led`. -/
def updateStateLed (stateIdx : BitVec 16) (g : Gui) : Gui :=
  { g with ledState := if 0 < stateIdx then .limeGreen else .gray30 }

/-- The labels and the indicator of the motor state. -/
def showValues (encPos stateIdx cycleTime cycleCounter : BitVec 16) (g : Gui) : Gui :=
  let g := { g with
    lblEncPos := toString encPos.toNat
    lblMotorState := motorStates.getD stateIdx.toNat "ERROR"
    lblCycleTime := toString cycleTime.toNat ++ " ms"
    lblCycleCount := toString cycleCounter.toNat }
  g.updateStateLed stateIdx

/-- Blink when the encoder has moved. -/
def blinkOnMove (encPos : BitVec 16) (g : Gui) : Gui :=
  if (encPos.toNat : ℤ) ≠ g.lastEncPos ∧ g.lastEncPos ≠ -1 then g.call .blinkEncLed else g

/-- Detect a new full rotation by the heartbeat. -/
def recordRotation (cycleTime cycleCounter : BitVec 16) (g : Gui) : Gui :=
  if (cycleCounter.toNat : ℤ) ≠ g.lastCycleCounter.getD (-1) ∧ cycleCounter ≠ 0 then
    let g := (g.call .blinkCycleLed).call .blinkCounterLed
    { g with cycleHistory := g.cycleHistory ++ [cycleTime] }.call .updateGraph
  else g

/-- Store the values for the next poll. -/
def storeValues (encPos cycleTime cycleCounter : BitVec 16) (g : Gui) : Gui :=
  { g with
    lastEncPos := encPos.toNat
    lastCycleTime := cycleTime.toNat
    lastCycleCounter := some cycleCounter.toNat }

/-- What the poll does with an answer. -/
def showTelemetry (encPos stateIdx cycleTime cycleCounter : BitVec 16) (g : Gui) : Gui :=
  let g := g.showValues encPos stateIdx cycleTime cycleCounter
  let g := g.blinkOnMove encPos
  let g := g.recordRotation cycleTime cycleCounter
  g.storeValues encPos cycleTime cycleCounter

/-- `poll_telemetry`.  Fewer than four registers raise an `IndexError` before anything has
changed. -/
def pollTelemetry (response : PollResponse) (g : Gui) : Gui :=
  let g :=
    if g.isConnected then
      match response with
      | .registers (encPos :: stateIdx :: cycleTime :: cycleCounter :: _) =>
          g.showTelemetry encPos stateIdx cycleTime cycleCounter
      | _ => g
    else g
  g.call (.afterPoll 500)

/-- `clear_graph`. -/
def clearGraph (g : Gui) : Gui :=
  { g with cycleHistory := [] }

/-- `toggle_connection`, where `connects` tells whether the client connects.  The poll that
follows a connection is an event of its own. -/
def toggleConnection (connects : Bool) (g : Gui) : Gui :=
  if !g.isConnected then
    if connects then { g with isConnected := true }
    else g.call (.showError "Error" "Could not connect to STM32.")
  else { g with isConnected := false, ledState := .gray30 }

end Gui

/-- What happens to the GUI. -/
inductive GuiEvent where
  | poll (response : PollResponse)
  | clearGraph
  | toggleConnection (connects : Bool)
deriving DecidableEq

/-- What one event does. -/
def guiStep (g : Gui) : GuiEvent → Gui
  | .poll response => g.pollTelemetry response
  | .clearGraph => g.clearGraph
  | .toggleConnection connects => g.toggleConnection connects

/-- A response that a poll drops. -/
def PollResponse.Fails : PollResponse → Prop
  | .registers values => values.length < 4
  | _ => True

/-- An event other than a successful poll. -/
def GuiEvent.Quiet : GuiEvent → Prop
  | .poll response => response.Fails
  | _ => True

/-! ## What an event changes -/

section

variable {g : Gui}

/-- A move of the encoder adds a call only. -/
theorem blinkOnMove_fields (encPos : BitVec 16) :
    (g.blinkOnMove encPos).isConnected = g.isConnected ∧
    (g.blinkOnMove encPos).lastCycleCounter = g.lastCycleCounter ∧
    (g.blinkOnMove encPos).cycleHistory = g.cycleHistory := by
  unfold Gui.blinkOnMove
  split <;> exact ⟨rfl, rfl, rfl⟩

theorem recordRotation_fields (cycleTime cycleCounter : BitVec 16) :
    (g.recordRotation cycleTime cycleCounter).isConnected = g.isConnected ∧
    (g.recordRotation cycleTime cycleCounter).cycleHistory =
      if (cycleCounter.toNat : ℤ) ≠ g.lastCycleCounter.getD (-1) ∧ cycleCounter ≠ 0 then
        g.cycleHistory ++ [cycleTime]
      else g.cycleHistory := by
  unfold Gui.recordRotation
  split <;> exact ⟨rfl, rfl⟩

/-- What an answer does to the connection, the graph and the remembered heartbeat. -/
theorem showTelemetry_fields (encPos stateIdx cycleTime cycleCounter : BitVec 16) :
    (g.showTelemetry encPos stateIdx cycleTime cycleCounter).isConnected = g.isConnected ∧
    (g.showTelemetry encPos stateIdx cycleTime cycleCounter).lastCycleCounter =
      some (cycleCounter.toNat : ℤ) ∧
    (g.showTelemetry encPos stateIdx cycleTime cycleCounter).cycleHistory =
      if (cycleCounter.toNat : ℤ) ≠ g.lastCycleCounter.getD (-1) ∧ cycleCounter ≠ 0 then
        g.cycleHistory ++ [cycleTime]
      else g.cycleHistory := by
  refine ⟨?_, rfl, ?_⟩
  · simp only [Gui.showTelemetry, Gui.storeValues, recordRotation_fields, blinkOnMove_fields]
    rfl
  · simp only [Gui.showTelemetry, Gui.storeValues, recordRotation_fields, blinkOnMove_fields]
    rfl

theorem pollTelemetry_isConnected (response : PollResponse) :
    (g.pollTelemetry response).isConnected = g.isConnected := by
  unfold Gui.pollTelemetry Gui.call
  split
  · split
    · exact (showTelemetry_fields _ _ _ _).1
    · rfl
  · rfl

/-- A poll without an answer leaves the GUI as it is. -/
theorem pollTelemetry_fails {response : PollResponse} (h : response.Fails) :
    g.pollTelemetry response = g.call (.afterPoll 500) := by
  unfold Gui.pollTelemetry
  split
  · split
    · simp only [PollResponse.Fails, List.length_cons] at h
      omega
    · rfl
  · rfl

/-- A successful poll of a connected GUI. -/
theorem pollTelemetry_registers {encPos stateIdx cycleTime cycleCounter : BitVec 16}
    {rest : List (BitVec 16)} (hconnected : g.isConnected = true) :
    g.pollTelemetry (.registers (encPos :: stateIdx :: cycleTime :: cycleCounter :: rest)) =
      (g.showTelemetry encPos stateIdx cycleTime cycleCounter).call (.afterPoll 500) := by
  simp only [Gui.pollTelemetry, hconnected, if_true]

/-- Only a successful poll changes the remembered heartbeat. -/
theorem guiStep_quiet {e : GuiEvent} (h : e.Quiet) :
    (guiStep g e).lastCycleCounter = g.lastCycleCounter := by
  cases e with
  | poll response => rw [guiStep, pollTelemetry_fails h, Gui.call]
  | clearGraph => rfl
  | toggleConnection connects =>
      simp only [guiStep, Gui.toggleConnection, Gui.call]
      split
      · split <;> rfl
      · rfl

theorem foldl_guiStep_quiet {events : List GuiEvent} (h : ∀ e ∈ events, e.Quiet) :
    (events.foldl guiStep g).lastCycleCounter = g.lastCycleCounter := by
  induction events generalizing g with
  | nil => rfl
  | cons e events ih =>
      rw [List.foldl_cons, ih fun e' he' => h e' (List.mem_cons_of_mem e he'),
        guiStep_quiet (h e List.mem_cons_self)]

end

/-! ## Runs of polls -/

/-- A GUI and the board that it polls.  The answer to a poll is built with zero pulses
landing among its reads. -/
structure PollRun where
  start : Gui
  responses : ℕ → PollResponse
  /-- What happens to the GUI between a poll and the next one. -/
  between : ℕ → List GuiEvent
  pulses : ℕ → ZeroPulse
  place : ℕ → Placement
  others : ℕ → ℕ → ReadInputs
  cfg : ℕ → ModbusConfig
  request : ℕ → Pbuf

namespace PollRun

variable (fl : ℚ → ℚ) (run : PollRun)

/-- The GUI before poll `k`. -/
def beforePoll : ℕ → Gui
  | 0 => run.start
  | k + 1 => (run.between k).foldl guiStep ((beforePoll k).pollTelemetry (run.responses k))

/-- The GUI after poll `k`. -/
def afterPoll (k : ℕ) : Gui :=
  (run.beforePoll k).pollTelemetry (run.responses k)

/-- What the board sends on the request of poll `k`. -/
def answers (k : ℕ) : List (List Byte) :=
  (modbusRecvCb fl (inputsAmong run.pulses (run.place k) (run.others k)) (run.cfg k)
    (some (run.request k)) 0).frames

/-- The pulses handled when poll `k` has its heartbeat read. -/
def landed (k : ℕ) : ℕ :=
  (run.place k).landed 3

/-- The polls `0` to `n` succeed, with fewer than 65536 pulses between two of them. -/
structure Successful (n : ℕ) : Prop where
  connected : ∀ k ≤ n, (run.beforePoll k).isConnected = true
  requested : ∀ k ≤ n,
    (run.request k).IsRequest fcReadHoldingRegs Register.encoderPos.address 4
  answered : ∀ k ≤ n, ∃ frame ∈ run.answers fl k,
    run.responses k = .registers ((List.range 4).map (responseWord frame))
  quiet : ∀ k < n, ∀ e ∈ run.between k, e.Quiet
  ordered : ∀ k < n, run.landed k ≤ run.landed (k + 1)
  few : ∀ k < n, run.landed (k + 1) < run.landed k + 65536

/-- Poll `k` puts its cycle time into the graph. -/
def Appends (k : ℕ) : Prop :=
  ∃ values, run.responses k = .registers values ∧
    (run.afterPoll k).cycleHistory = (run.beforePoll k).cycleHistory ++ [values.getD 2 0]

/-- A pulse after the first one is handled between poll `k` and the next. -/
def NewRevolution (k : ℕ) : Prop :=
  ∃ i, 0 < i ∧ run.landed k ≤ i ∧ i < run.landed (k + 1)

/-- The heartbeat at poll `k`. -/
def heartbeat (k : ℕ) : BitVec 16 :=
  appEncoderGetCycleCounter (afterPulses run.pulses (run.landed k))

/-- The first pulse ends no revolution. -/
theorem heartbeat_toNat (k : ℕ) : (run.heartbeat k).toNat = (run.landed k - 1) % 65536 := by
  rw [heartbeat]
  cases run.landed k with
  | zero => rfl
  | succ i => exact cycleCounter_afterPulses run.pulses i

variable {fl run} {n k : ℕ}

/-- The registers of a successful poll end with the heartbeat. -/
theorem Successful.responses_eq (h : run.Successful fl n) (hk : k ≤ n) :
    ∃ encPos stateIdx cycleTime,
      run.responses k = .registers [encPos, stateIdx, cycleTime, run.heartbeat k] := by
  obtain ⟨frame, hframe, hresponse⟩ := h.answered k hk
  rw [answers, (recv_read (h.requested k hk) (by decide) (by decide)).2] at hframe
  have hword : responseWord frame 3 = run.heartbeat k := by
    rw [List.mem_singleton.mp hframe, readResponse_word _ (by decide)]
    rfl
  refine ⟨responseWord frame 0, responseWord frame 1, responseWord frame 2, ?_⟩
  rw [hresponse, ← hword]
  rfl

/-- A successful poll remembers its heartbeat until the next one. -/
theorem Successful.lastCycleCounter_eq (h : run.Successful fl n) (hk : k < n) :
    (run.beforePoll (k + 1)).lastCycleCounter = some ((run.heartbeat k).toNat : ℤ) := by
  obtain ⟨encPos, stateIdx, cycleTime, hresponse⟩ := h.responses_eq hk.le
  obtain ⟨-, hstored, -⟩ := @showTelemetry_fields (run.beforePoll k) encPos stateIdx cycleTime
    (run.heartbeat k)
  rw [beforePoll, foldl_guiStep_quiet (h.quiet k hk), hresponse,
    pollTelemetry_registers (h.connected k hk.le)]
  exact hstored

/-- A poll puts a sample into the graph exactly when its heartbeat differs from that of the
poll before and is not zero. -/
theorem Successful.appends_iff (h : run.Successful fl n) (hk : k < n) :
    run.Appends (k + 1) ↔ run.heartbeat (k + 1) ≠ run.heartbeat k ∧ run.heartbeat (k + 1) ≠ 0 := by
  obtain ⟨encPos, stateIdx, cycleTime, hresponse⟩ := h.responses_eq (Nat.succ_le_of_lt hk)
  obtain ⟨-, -, hhistory⟩ := @showTelemetry_fields (run.beforePoll (k + 1)) encPos stateIdx
    cycleTime (run.heartbeat (k + 1))
  simp only [h.lastCycleCounter_eq hk, Option.getD_some, ne_eq, Nat.cast_inj,
    BitVec.toNat_inj] at hhistory
  have hafter : (run.afterPoll (k + 1)).cycleHistory =
      ((run.beforePoll (k + 1)).showTelemetry encPos stateIdx cycleTime
        (run.heartbeat (k + 1))).cycleHistory := by
    rw [afterPoll, hresponse, pollTelemetry_registers (h.connected (k + 1) hk)]
    rfl
  constructor
  · rintro ⟨values, -, hvalues⟩
    by_contra hnot
    rw [hafter, hhistory, if_neg hnot] at hvalues
    exact List.cons_ne_nil _ _ (List.self_eq_append_right.mp hvalues)
  · intro hchanged
    rw [if_pos hchanged] at hhistory
    exact ⟨_, hresponse, hafter.trans hhistory⟩

/-- There are new revolutions exactly when the number of the revolutions has grown. -/
theorem newRevolution_iff : run.NewRevolution k ↔ run.landed k - 1 < run.landed (k + 1) - 1 := by
  constructor
  · rintro ⟨i, hpos, hle, hlt⟩
    omega
  · intro hlt
    exact ⟨run.landed (k + 1) - 1, by omega, by omega, by omega⟩

/-- With fewer than 65536 pulses in between, the heartbeat has changed exactly when there
are new revolutions. -/
theorem Successful.heartbeat_ne_iff (h : run.Successful fl n) (hk : k < n) :
    run.heartbeat (k + 1) ≠ run.heartbeat k ↔ run.NewRevolution k := by
  have hordered := h.ordered k hk
  have hfew := h.few k hk
  rw [newRevolution_iff, Ne, ← BitVec.toNat_inj, heartbeat_toNat, heartbeat_toNat]
  omega

theorem heartbeat_eq_zero_iff : run.heartbeat k = 0 ↔ 65536 ∣ run.landed k - 1 := by
  rw [← BitVec.toNat_inj, heartbeat_toNat, Nat.dvd_iff_mod_eq_zero]
  rfl

/-- A poll follows the revolutions unless it finds, after new ones, the heartbeat wrapped
to zero. -/
theorem Successful.poll_recorded_iff (h : run.Successful fl n) (hk : k < n) :
    (run.Appends (k + 1) ↔ run.NewRevolution k) ↔
      (run.NewRevolution k → ¬ 65536 ∣ run.landed (k + 1) - 1) := by
  rw [h.appends_iff hk, h.heartbeat_ne_iff hk, Ne, heartbeat_eq_zero_iff]
  exact and_iff_left_iff_imp

/-- In a run of successful polls every poll after the first puts a sample into the graph
exactly when there are new revolutions, if and only if no poll finds, after new revolutions,
their number since the start of the board at a multiple of 65536. -/
theorem revolutions_recorded_iff (h : run.Successful fl n) :
    (∀ k < n, (run.Appends (k + 1) ↔ run.NewRevolution k)) ↔
      ∀ k < n, run.NewRevolution k → ¬ 65536 ∣ run.landed (k + 1) - 1 :=
  forall₂_congr fun _ hk => h.poll_recorded_iff hk

end PollRun

/-! ## A motor at two turns a second -/

/-- The request that the GUI sends. -/
def telemetryRequest : Pbuf :=
  requestSegment fcReadHoldingRegs Register.encoderPos.address 4

/-- A pulse every 500 ms. -/
def steadyPulses (i : ℕ) : ZeroPulse :=
  ⟨BitVec.ofNat 32 (500000 * (i + 1)), BitVec.ofNat 32 (500 * (i + 1))⟩

/-- A run with one pulse between two polls. -/
def steadyRun : PollRun where
  start := { initialGui with isConnected := true }
  responses := fun k => .registers ((List.range 4).map (responseWord
    (readResponse id (inputsAmong steadyPulses ⟨fun _ => k + 1, monotone_const⟩
      fun _ => restInputs) initialConfig telemetryRequest Register.encoderPos.address 4)))
  between := fun _ => []
  pulses := steadyPulses
  place := fun k => ⟨fun _ => k + 1, monotone_const⟩
  others := fun _ _ => restInputs
  cfg := fun _ => initialConfig
  request := fun _ => telemetryRequest

theorem steadyRun_landed (k : ℕ) : steadyRun.landed k = k + 1 :=
  rfl

theorem steadyRun_request (k : ℕ) :
    (steadyRun.request k).IsRequest fcReadHoldingRegs Register.encoderPos.address 4 :=
  requestSegment_isRequest fcReadHoldingRegs Register.encoderPos.address 4

theorem steadyRun_successful (n : ℕ) : steadyRun.Successful id n where
  connected := by
    intro k _
    induction k with
    | zero => rfl
    | succ k ih =>
        rw [PollRun.beforePoll]
        exact (pollTelemetry_isConnected _).trans (ih (by omega))
  requested := fun k _ => steadyRun_request k
  answered := by
    intro k _
    refine ⟨_, ?_, rfl⟩
    rw [PollRun.answers, (recv_read (steadyRun_request k) (by decide) (by decide)).2]
    exact List.mem_singleton.mpr rfl
  quiet := by
    intro k _ e he
    cases he
  ordered := by
    intro k _
    rw [steadyRun_landed, steadyRun_landed]
    omega
  few := by
    intro k _
    rw [steadyRun_landed, steadyRun_landed]
    omega

/-- The first three polls of the run. -/
theorem revolutions_recorded_iff_three :
    (∀ k < 2, (steadyRun.Appends (k + 1) ↔ steadyRun.NewRevolution k)) ↔
      ∀ k < 2, steadyRun.NewRevolution k → ¬ 65536 ∣ steadyRun.landed (k + 1) - 1 :=
  PollRun.revolutions_recorded_iff (steadyRun_successful 2)

/-- The poll that finds 65536 revolutions misses the last of them. -/
theorem revolution_missed :
    steadyRun.Successful id 65536 ∧ steadyRun.NewRevolution 65535 ∧
      ¬ steadyRun.Appends 65536 := by
  have hsuccessful := steadyRun_successful 65536
  refine ⟨hsuccessful, ⟨65536, by omega, le_rfl, Nat.lt_succ_self 65536⟩, ?_⟩
  rw [hsuccessful.appends_iff (k := 65535) (by omega)]
  rintro ⟨-, hne⟩
  exact hne (PollRun.heartbeat_eq_zero_iff.mpr (dvd_refl 65536))

end Modbus
end MDCMotorControl
