import MDCMotorControl.Firmware.MainLoop

/-!
# Arbitration of start and stop requests

The handler turns every command into one flag per direction, which forgets the
order of arrival, and a pass replays the switch edge, the start flag and the stop
flag in this order.

The abstract arbiter is what a pass does to the request, the stream and their
flags: `receive` for one command, `settle` for the replay.

Main results:

- Theorem `pass_arbiter`: a pass does to the requests what the arbiter does.
- Theorem `Arbiter.settle_receiveAll`: the outcome of a batch of commands.
- Theorem `requests_after_pass`: in every run, a stop in a batch beats a start,
  a start beats the switch, and the switch counts only when its level changed.
- Theorem `last_command_lost`: a start that follows a stop in one batch is lost.
-/

namespace MDCMotorControl
namespace Firmware

open Interruptible Motor Settings Modbus Panel FlashSector

/-! ## The abstract arbiter -/

/-- The requests and the flags they are computed from. -/
structure Arbiter where
  pendingMotorStart : Bool
  pendingMotorStop : Bool
  pendingStreamStart : Bool
  pendingStreamStop : Bool
  streamActive : Bool
  lastSwitchState : Bool
  currentSwitchState : Bool
  sysMotorRunRequest : Bool
deriving DecidableEq

/-- A start command for a control register. -/
def startAsked (r : Register) (c : Register × BitVec 16) : Bool :=
  c.1 = r && c.2 = 1

/-- A stop command for a control register: any other value. -/
def stopAsked (r : Register) (c : Register × BitVec 16) : Bool :=
  c.1 = r && c.2 != 1

namespace Arbiter

/-- One command sets one flag. -/
def receive (a : Arbiter) (c : Register × BitVec 16) : Arbiter :=
  { a with
    pendingMotorStart := a.pendingMotorStart || startAsked .motorCtrl c
    pendingMotorStop := a.pendingMotorStop || stopAsked .motorCtrl c
    pendingStreamStart := a.pendingStreamStart || startAsked .streamCtrl c
    pendingStreamStop := a.pendingStreamStop || stopAsked .streamCtrl c }

/-- The sampled switch level replaces the request when it is new. -/
def switchEdge (a : Arbiter) : Arbiter :=
  { a with
    lastSwitchState := a.currentSwitchState
    sysMotorRunRequest :=
      if a.currentSwitchState = a.lastSwitchState then a.sysMotorRunRequest
      else a.currentSwitchState }

/-- A pending start. -/
def motorStart (a : Arbiter) : Arbiter :=
  { a with
    pendingMotorStart := false
    sysMotorRunRequest := a.sysMotorRunRequest || a.pendingMotorStart }

/-- A pending stop. -/
def motorStop (a : Arbiter) : Arbiter :=
  { a with
    pendingMotorStop := false
    sysMotorRunRequest := a.sysMotorRunRequest && !a.pendingMotorStop }

/-- A pending start of the stream. -/
def streamStart (a : Arbiter) : Arbiter :=
  { a with
    pendingStreamStart := false
    streamActive := a.streamActive || a.pendingStreamStart }

/-- A pending stop of the stream. -/
def streamStop (a : Arbiter) : Arbiter :=
  { a with
    pendingStreamStop := false
    streamActive := a.streamActive && !a.pendingStreamStop }

/-- The replay of a pass. -/
def settle (a : Arbiter) : Arbiter :=
  a.switchEdge.motorStart.motorStop.streamStart.streamStop

/-- A batch of commands sets the flags of the kinds of commands in it. -/
theorem receiveAll (a : Arbiter) (cmds : List (Register × BitVec 16)) :
    cmds.foldl receive a =
      { a with
        pendingMotorStart := a.pendingMotorStart || cmds.any (startAsked .motorCtrl)
        pendingMotorStop := a.pendingMotorStop || cmds.any (stopAsked .motorCtrl)
        pendingStreamStart := a.pendingStreamStart || cmds.any (startAsked .streamCtrl)
        pendingStreamStop := a.pendingStreamStop || cmds.any (stopAsked .streamCtrl) } := by
  induction cmds generalizing a with
  | nil => simp
  | cons c cmds ih =>
      rw [List.foldl_cons, ih]
      simp only [receive, List.any_cons, Bool.or_assoc]

end Arbiter

/-! ## The arbiter in the firmware -/

/-- What the arbiter sees of the firmware. -/
def World.arbiter (w : World) : Arbiter where
  pendingMotorStart := w.ctl.mb.pendingMotorStart
  pendingMotorStop := w.ctl.mb.pendingMotorStop
  pendingStreamStart := w.ctl.mb.pendingStreamStart
  pendingStreamStop := w.ctl.mb.pendingStreamStop
  streamActive := w.ctl.mb.streamActive
  lastSwitchState := w.ctl.lastSwitchState
  currentSwitchState := w.ctl.currentSwitchState
  sysMotorRunRequest := w.ctl.sysMotorRunRequest

/-- The commands that the segments of a pass carry, in order of arrival. -/
def PassInput.commands (input : PassInput) : List (Register × BitVec 16) :=
  input.deliveries.filterMap fun d => d.1.command

section

variable {fl : ℚ → ℚ} {crc : List (BitVec 32) → BitVec 32}

theorem sysTickHandler_arbiter (pin : Bool) (w : World) :
    (sysTickHandler fl pin w).arbiter = w.arbiter := by
  simp [World.arbiter]

/-- A register write is received by the arbiter as a command. -/
theorem arbiter_writeRegister (w : World) (c : Register × BitVec 16) :
    (w.onMb (writeRegister fl · c.1 c.2)).arbiter = w.arbiter.receive c := by
  obtain ⟨r, v⟩ := c
  cases r <;>
    simp [World.arbiter, World.onMb, World.onCtl, writeRegister, Arbiter.receive, startAsked,
      stopAsked]
  case motorCtrl => by_cases hv : v = 1#16 <;> simp [hv]
  case streamCtrl => by_cases hv : v = 1#16 <;> simp [hv]
  case saveSettings => by_cases hv : v = 1#16 <;> simp [hv]
  case systemReboot => by_cases hv : v = 1#16 <;> simp [hv]

/-- One segment, as the arbiter sees it. -/
theorem arbiter_receive (w : World) (p : Pbuf) (inputs : ℕ → ReadInputs) :
    (receive fl p inputs w).arbiter = p.command.elim w.arbiter w.arbiter.receive := by
  simp only [receive, recv_cfg]
  cases p.command with
  | none => rfl
  | some c => exact arbiter_writeRegister w c

/-! ## The arbiter through a pass -/

/-- The network processing receives the commands of the segments. -/
theorem mxLwipProcess_arbiter (deliveries : List (Pbuf × (ℕ → ReadInputs))) (a : Arbiter) :
    Triple (sysTickHandler fl) (fun _ => True) (fun w => w.arbiter = a)
      (mxLwipProcess fl deliveries)
      (fun w => w.arbiter =
        (deliveries.filterMap fun d => d.1.command).foldl Arbiter.receive a) := by
  have hstable : ∀ b, Stable (sysTickHandler fl) fun w => w.arbiter = b :=
    fun b pin w hw => (sysTickHandler_arbiter pin w).trans hw
  induction deliveries generalizing a with
  | nil => exact .done (hstable a) (fun _ _ => trivial) fun _ => id
  | cons d ds ih =>
      have hstep : ∀ w : World, w.arbiter = a →
          (receive fl d.1 d.2 w).arbiter = d.1.command.elim a a.receive := by
        rintro w rfl
        exact arbiter_receive w d.1 d.2
      refine Triple.act (hstable a) (fun _ _ => trivial) hstep
        ((ih _).conseq (fun _ => id) fun w hw => ?_)
      rw [hw]
      cases hcmd : d.1.command with
      | none => simp [hcmd]
      | some c => simp [hcmd]

/-- The sampled switch level is any level. -/
theorem sampleInputs_arbiter (a : Arbiter) :
    Triple (sysTickHandler fl) (fun _ => True) (fun w => w.arbiter = a) sampleInputs
      (fun w => ∃ level, w.arbiter = { a with currentSwitchState := level }) := by
  have hstable : ∀ b, Stable (sysTickHandler fl) fun w => w.arbiter = b :=
    fun b pin w hw => (sysTickHandler_arbiter pin w).trans hw
  have hsampled : Stable (sysTickHandler fl)
      fun w => ∃ level, w.arbiter = { a with currentSwitchState := level } :=
    fun pin w ⟨level, hw⟩ => ⟨level, (sysTickHandler_arbiter pin w).trans hw⟩
  refine Triple.act (hstable a) (fun _ _ => trivial) ?_
    (Triple.stmt hsampled (fun _ _ => trivial) hsampled (fun _ _ => trivial) ?_)
  · rintro w rfl
    exact ⟨appSwitchGetState w.switch, rfl⟩
  · rintro w ⟨level, hw⟩
    exact ⟨level, hw⟩

theorem saveCommand_keeps_arbiter (ops : Outcomes 12) :
    (saveCommand crc ops).Keeps World.arbiter :=
  saveCommand_keeps crc (fun _ => rfl) (fun _ => rfl) (fun _ _ => rfl) ops

/-- The commands whose conditions and statements the arbiter determines. -/
theorem determined_command {c : World → Bool} {body : Code World} (k : Arbiter → Bool)
    (hc : ∀ w, c w = k w.arbiter) (hbody : body.Determined World.arbiter) :
    (Code.whenever c body).Determined World.arbiter :=
  .whenever (fun w v h => by rw [hc, hc, h]) hbody

theorem switchEdge_arbiter (a : Arbiter) :
    Triple (sysTickHandler fl) (fun _ => True) (fun w => w.arbiter = a) switchEdge
      (fun w => w.arbiter = a.switchEdge) := by
  refine Triple.computes sysTickHandler_arbiter ?_ ?_ a
  · refine determined_command (fun a => a.currentSwitchState != a.lastSwitchState)
      (fun _ => rfl) ?_
    exact .block_cons
      (.stmt_of (fun a => { a with lastSwitchState := a.currentSwitchState }) fun _ => rfl) <|
      .block_cons
        (.stmt_of (fun a => { a with sysMotorRunRequest := a.currentSwitchState }) fun _ => rfl)
        .block_nil
  · intro w
    rw [switchEdge, Code.exec_whenever]
    by_cases h : w.ctl.currentSwitchState = w.ctl.lastSwitchState
    · simp [World.arbiter, Arbiter.switchEdge, h]
    · simp [World.arbiter, Arbiter.switchEdge, h, World.onCtl]

theorem motorStartCommand_arbiter (a : Arbiter) :
    Triple (sysTickHandler fl) (fun _ => True) (fun w => w.arbiter = a) motorStartCommand
      (fun w => w.arbiter = a.motorStart) := by
  refine Triple.computes sysTickHandler_arbiter ?_ ?_ a
  · refine determined_command (·.pendingMotorStart) (fun _ => rfl) ?_
    exact .block_cons (.stmt_of ({ · with pendingMotorStart := false }) fun _ => rfl) <|
      .block_cons (.stmt_of ({ · with sysMotorRunRequest := true }) fun _ => rfl) .block_nil
  · intro w
    rw [motorStartCommand, Code.exec_whenever]
    cases h : w.ctl.mb.pendingMotorStart <;>
      simp [World.arbiter, Arbiter.motorStart, h, World.onCtl, World.onMb]

theorem motorStopCommand_arbiter (a : Arbiter) :
    Triple (sysTickHandler fl) (fun _ => True) (fun w => w.arbiter = a) motorStopCommand
      (fun w => w.arbiter = a.motorStop) := by
  refine Triple.computes sysTickHandler_arbiter ?_ ?_ a
  · refine determined_command (·.pendingMotorStop) (fun _ => rfl) ?_
    exact .block_cons (.stmt_of ({ · with pendingMotorStop := false }) fun _ => rfl) <|
      .block_cons (.stmt_of ({ · with sysMotorRunRequest := false }) fun _ => rfl) .block_nil
  · intro w
    rw [motorStopCommand, Code.exec_whenever]
    cases h : w.ctl.mb.pendingMotorStop <;>
      simp [World.arbiter, Arbiter.motorStop, h, World.onCtl, World.onMb]

theorem streamStartCommand_arbiter (a : Arbiter) :
    Triple (sysTickHandler fl) (fun _ => True) (fun w => w.arbiter = a) streamStartCommand
      (fun w => w.arbiter = a.streamStart) := by
  refine Triple.computes sysTickHandler_arbiter ?_ ?_ a
  · refine determined_command (·.pendingStreamStart) (fun _ => rfl) ?_
    exact .block_cons (.stmt_of ({ · with pendingStreamStart := false }) fun _ => rfl) <|
      .block_cons (determined_command (!·.streamActive) (fun _ => rfl) <|
        .block_cons (.stmt_of id fun _ => rfl) <|
        .block_cons (.stmt_of ({ · with streamActive := true }) fun _ => rfl) .block_nil)
      .block_nil
  · intro w
    rw [streamStartCommand, Code.exec_whenever]
    cases h : w.ctl.mb.pendingStreamStart <;> cases ha : w.ctl.mb.streamActive <;>
      simp [World.arbiter, Arbiter.streamStart, h, ha, World.onCtl, World.onMb,
        Code.exec_whenever, setStepInterrupts]

theorem streamStopCommand_arbiter (a : Arbiter) :
    Triple (sysTickHandler fl) (fun _ => True) (fun w => w.arbiter = a) streamStopCommand
      (fun w => w.arbiter = a.streamStop) := by
  refine Triple.computes sysTickHandler_arbiter ?_ ?_ a
  · refine determined_command (·.pendingStreamStop) (fun _ => rfl) ?_
    exact .block_cons (.stmt_of ({ · with pendingStreamStop := false }) fun _ => rfl) <|
      .block_cons (determined_command (·.streamActive) (fun _ => rfl) <|
        .block_cons (.stmt_of id fun _ => rfl) <|
        .block_cons (.stmt_of ({ · with streamActive := false }) fun _ => rfl) .block_nil)
      .block_nil
  · intro w
    rw [streamStopCommand, Code.exec_whenever]
    cases h : w.ctl.mb.pendingStreamStop <;> cases ha : w.ctl.mb.streamActive <;>
      simp [World.arbiter, Arbiter.streamStop, h, ha, World.onCtl, World.onMb,
        Code.exec_whenever, setStepInterrupts]

theorem baudChangeCommand_keeps_arbiter : baudChangeCommand.Keeps World.arbiter :=
  .whenever (.block_cons (.stmt fun _ => rfl) <|
    .block_cons (.stmt fun _ => rfl) <|
    .block_cons (.whenever (.stmt fun _ => rfl)) <|
    .block_cons (.stmt fun _ => rfl) <|
    .block_cons (.whenever (.stmt fun _ => rfl)) .block_nil)

theorem encoderDirCommand_keeps_arbiter : encoderDirCommand.Keeps World.arbiter :=
  .whenever_pair (fun _ => rfl) fun _ => rfl

theorem rebootCommand_keeps_arbiter : rebootCommand.Keeps World.arbiter :=
  .whenever (.block_cons (.stmt fun _ => rfl) <|
    .block_cons (.stmt fun _ => rfl) <|
    .block_cons (.stmt fun _ => rfl) <|
    .block_cons (fun _ => trivial) .block_nil)

/-- The commands replay the batch as the arbiter settles it. -/
theorem commands_arbiter (a : Arbiter) :
    Triple (sysTickHandler fl) (fun _ => True) (fun w => w.arbiter = a) commands
      (fun w => w.arbiter = a.settle) := by
  have hrest : (Code.block [baudChangeCommand, encoderDirCommand, rebootCommand]).Keeps
      World.arbiter :=
    .block_cons baudChangeCommand_keeps_arbiter <|
      .block_cons encoderDirCommand_keeps_arbiter <|
      .block_cons rebootCommand_keeps_arbiter .block_nil
  exact (switchEdge_arbiter a).seq <| (motorStartCommand_arbiter _).seq <|
    (motorStopCommand_arbiter _).seq <| (streamStartCommand_arbiter _).seq <|
    (streamStopCommand_arbiter _).seq <|
    Triple.keeps sysTickHandler_arbiter hrest _

theorem motorStateMachine_keeps_arbiter : (motorStateMachine fl).Keeps World.arbiter :=
  motorStateMachine_keeps fl (fun _ _ => rfl) fun _ _ => rfl

/-- The rest of a pass settles what has been received and sampled. -/
theorem afterSampling_arbiter (ops : Outcomes 12) (a : Arbiter) :
    Triple (sysTickHandler fl) (fun _ => True) (fun w => w.arbiter = a)
      (.block [saveCommand crc ops, commands, motorStateMachine fl])
      (fun w => w.arbiter = a.settle) := by
  have hmachine : (Code.block [motorStateMachine fl]).Keeps World.arbiter :=
    .block_cons motorStateMachine_keeps_arbiter .block_nil
  exact (Triple.keeps sysTickHandler_arbiter (saveCommand_keeps_arbiter ops) a).seq <|
    (commands_arbiter a).seq <| Triple.keeps sysTickHandler_arbiter hmachine _

/-- A pass receives the commands of its batch and settles them with the sampled
switch level. -/
theorem pass_arbiter (input : PassInput) (a : Arbiter) :
    Triple (sysTickHandler fl) (fun _ => True) (fun w => w.arbiter = a) (pass fl crc input)
      (fun w => ∃ level, w.arbiter =
        ({ input.commands.foldl Arbiter.receive a with currentSwitchState := level }).settle) := by
  refine (mxLwipProcess_arbiter input.deliveries a).seq ((sampleInputs_arbiter _).seq ?_)
  rintro w ⟨level, hlevel⟩
  exact wp_mono (fun _ => id) (fun v hv => ⟨level, hv⟩)
    (afterSampling_arbiter input.save _ w hlevel)

/-! ## Between two passes -/

/-- No motor command and no stop of the stream is pending. -/
def Arbiter.Idle (a : Arbiter) : Prop :=
  a.pendingMotorStart = false ∧ a.pendingMotorStop = false ∧ a.pendingStreamStop = false

theorem Arbiter.settle_idle (a : Arbiter) : a.settle.Idle :=
  ⟨rfl, rfl, rfl⟩

theorem idle_stable : Stable (sysTickHandler fl) fun w => w.arbiter.Idle := by
  intro pin w hw
  rwa [sysTickHandler_arbiter]

theorem boot_idle (ops : Outcomes 12) :
    Triple (sysTickHandler fl) (fun _ => True) (fun w => w.arbiter.Idle) (boot crc ops)
      (fun w => w.arbiter.Idle) := by
  have hinit : (settingsInit crc ops).Preserves fun w => w.arbiter.Idle :=
    .branch ⟨fun _ => id, trivial⟩ (.stmt fun _ => id)
  exact .of_preserves idle_stable (fun _ _ => trivial) <| .block_cons hinit
    ⟨fun _ => id, fun _ => id, fun _ => id, fun _ => id, fun _ => id, fun _ => id, fun _ => id,
      trivial⟩

/-- The boot code and every pass return with no command pending. -/
theorem runFrom_idle (start : PowerUp) (schedule : List (Event Bool PassInput)) :
    wp (sysTickHandler fl) (fun _ => True) (fun w => w.arbiter.Idle)
      (runFrom fl crc start schedule).code (runFrom fl crc start schedule).state := by
  have hboot : wp (firmware fl crc).irq (fun _ => True) (fun w => w.arbiter.Idle)
      (start.config crc).code (start.config crc).state :=
    boot_idle start.repair _ ⟨rfl, rfl, rfl⟩
  refine System.run_invariant (fun input w _ => ?_) hboot schedule
  refine wp_mono (fun _ => id) ?_ (pass_arbiter input w.arbiter w rfl)
  rintro v ⟨level, hv⟩
  rw [hv]
  exact Arbiter.settle_idle _

end

/-! ## The outcome of a batch -/

/-- With no command pending before, a batch is settled by the kinds of commands
in it: stop before start before switch. -/
theorem Arbiter.settle_receiveAll {a : Arbiter} (h : a.Idle)
    (cmds : List (Register × BitVec 16)) (level : Bool) :
    let a' := ({ cmds.foldl receive a with currentSwitchState := level }).settle
    a'.currentSwitchState = level ∧ a'.sysMotorRunRequest =
      (if cmds.any (stopAsked .motorCtrl) then false
      else if cmds.any (startAsked .motorCtrl) then true
      else if level ≠ a.lastSwitchState then level
      else a.sysMotorRunRequest) ∧
    a'.streamActive =
      (if cmds.any (stopAsked .streamCtrl) then false
      else if cmds.any (startAsked .streamCtrl) || a.pendingStreamStart then true
      else a.streamActive) := by
  obtain ⟨hstart, hstop, hstream⟩ := h
  rw [receiveAll]
  refine ⟨rfl, ?_, ?_⟩
  · simp only [settle, switchEdge, motorStart, motorStop, streamStart, streamStop, hstart, hstop,
      Bool.false_or]
    cases cmds.any (stopAsked .motorCtrl) <;> cases cmds.any (startAsked .motorCtrl) <;>
      by_cases hlevel : level = a.lastSwitchState <;> simp [hlevel]
  · simp only [settle, switchEdge, motorStart, motorStop, streamStart, streamStop, hstream,
      Bool.false_or]
    cases cmds.any (stopAsked .streamCtrl) <;> cases cmds.any (startAsked .streamCtrl) <;>
      cases a.pendingStreamStart <;> simp

/-! ## Main result -/

/-- Take any point of any run where a pass may be entered, and the run of this
pass to its end.  The request afterwards is decided by the kinds of commands of
the batch: a stop wins, then a start, then a new switch level.  The stream is
decided in the same way; the boot may have left a start of the stream pending. -/
theorem requests_after_pass (fl : ℚ → ℚ) (crc : List (BitVec 32) → BitVec 32)
    (start : PowerUp) (before during : List (Event Bool PassInput)) (input : PassInput)
    (hready : (runFrom fl crc start before).code = .done)
    (hduring : ∀ e ∈ during, e.isEnter = false)
    (hreturned : (runFrom fl crc start (before ++ .enter input :: during)).code = .done) :
    let old := (runFrom fl crc start before).state.ctl
    let new := (runFrom fl crc start (before ++ .enter input :: during)).state.ctl
    let batch := input.commands
    new.sysMotorRunRequest =
      (if batch.any (stopAsked .motorCtrl) then false
      else if batch.any (startAsked .motorCtrl) then true
      else if new.currentSwitchState ≠ old.lastSwitchState then new.currentSwitchState
      else old.sysMotorRunRequest) ∧
    new.mb.streamActive =
      (if batch.any (stopAsked .streamCtrl) then false
      else if batch.any (startAsked .streamCtrl) || old.mb.pendingStreamStart then true
      else old.mb.streamActive) := by
  have hidle : (runFrom fl crc start before).state.arbiter.Idle :=
    wp_returned (Q := fun w : World => w.arbiter.Idle) (runFrom_idle start before) hready
  have hentered := @pass_arbiter fl crc input _ (runFrom fl crc start before).state rfl
  obtain ⟨level, hlevel⟩ := @System.body_returned _ _ _ _ _ (firmware fl crc) before during input
    (start.config crc) hready hduring hreturned hentered
  obtain ⟨hcurrent, hrequest, hstream⟩ :=
    Arbiter.settle_receiveAll hidle input.commands level
  rw [← hlevel] at hcurrent hrequest hstream
  subst hcurrent
  exact ⟨hrequest, hstream⟩

/-- A start command alone, after the boot. -/
theorem requests_after_pass_start :
    (runFrom id (fun _ => 0) (emptyFlash false)
      (bootAndPasses [writes [(.motorCtrl, 1)]])).state.ctl.sysMotorRunRequest = true :=
  (requests_after_pass id (fun _ => 0) (emptyFlash false) (bootAndPasses [])
    (List.replicate 50 .main) (writes [(.motorCtrl, 1)])
    (Code.returned_iff.mp (by decide +kernel)) (by decide)
    (Code.returned_iff.mp (by decide +kernel))).1.trans (by decide +kernel)

/-- A start command that follows a stop command in one batch is lost, and so is a
start of the stream. -/
theorem last_command_lost :
    let c := runFrom id (fun _ => 0) (emptyFlash false) (bootAndPasses
      [writes [(.motorCtrl, 0), (.motorCtrl, 1), (.streamCtrl, 0), (.streamCtrl, 1)]])
    c.code.returned = true ∧ c.state.ctl.currentSwitchState = false ∧
      c.state.ctl.lastSwitchState = false ∧ c.state.ctl.sysMotorRunRequest = false ∧
      c.state.ctl.mb.streamActive = false := by
  decide +kernel

end Firmware
end MDCMotorControl
