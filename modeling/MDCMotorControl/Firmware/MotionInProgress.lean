import MDCMotorControl.Firmware.Arbitration
import MDCMotorControl.Firmware.RunRequest
import MDCMotorControl.Library.Executions

/-!
# A motion in progress is left alone

The parameters of a motion are read when the motor is started.  Two runs that
differ in parameter writes only make the same motor calls until the motor stops:
the part of the state that decides on them evolves alike in both, and when one run
starts the motor again, both have stopped it before.

The two runs need not execute the same statements.  A pass is cut into stages; the
statements of some are the same in both runs, those of the others depend on the
writes but leave the motion to the ticks.

Main results:

- Theorem `frozen_rules`: after a stop the calls until the stop no longer change.
- Theorem `TimedRun.related`: what two runs have in common after every pass.
- Theorem `motion_in_progress`: the calls until the next stop are the same.
-/

namespace MDCMotorControl
namespace Firmware

open Interruptible Motor Settings Modbus Panel FlashSector

/-! ## Calls until the stop -/

/-- The calls into `hal_motor.c` that move the motor. -/
def movesMotor : DriveCall → Bool
  | .setDirection _ => true
  | .enable _ => true
  | .setFrequency _ => true
  | .startTimer => true
  | .stopTimer => true
  | _ => false

/-- The entries of a trace after the first `n`, oldest first. -/
def since (n : ℕ) (trace : List DriveEvent) : List DriveEvent :=
  trace.reverse.drop n

/-- The motor calls after the first `n` entries of a trace, up to the next stop of
the motor: every entry is stamped with the state of the motor at its time. -/
def motionCalls (n : ℕ) (trace : List DriveEvent) : List DriveCall :=
  (((since n trace).takeWhile (·.state ≠ .stopped)).map (·.call)).filter movesMotor

theorem since_cons {n : ℕ} {trace : List DriveEvent} (h : n ≤ trace.length) (e : DriveEvent) :
    since n (e :: trace) = since n trace ++ [e] := by
  rw [since, List.reverse_cons, List.drop_append_of_le_length (by simpa using h), since]

/-- Past an exception, appending does not change the longest good prefix. -/
theorem takeWhile_append_of_mem {α : Type*} {p : α → Bool} {l : List α} {a e : α}
    (ha : a ∈ l ++ [e]) (hp : p a = false) : (l ++ [e]).takeWhile p = l.takeWhile p := by
  induction l with
  | nil =>
      obtain rfl : a = e := by simpa using ha
      simp [hp]
  | cons b l ih =>
      cases hb : p b with
      | false => simp [hb]
      | true =>
          have hne : a ≠ b := by
            rintro rfl
            rw [hp] at hb
            cases hb
          have hmem : a ∈ l ++ [e] := by
            rcases List.mem_cons.mp ha with heq | hmem
            · exact absurd heq hne
            · exact hmem
          simp [hb, ih hmem]

/-- The stop is on record: the calls up to it are the given ones. -/
structure Over (n : ℕ) (calls : List DriveCall) (trace : List DriveEvent) : Prop where
  le : n ≤ trace.length
  calls_eq : motionCalls n trace = calls
  stop : ∃ e ∈ since n trace, e.state = .stopped

/-- One more entry, if the stop is on record or this entry records it. -/
theorem over_cons {n : ℕ} {calls : List DriveCall} {trace : List DriveEvent} {e a : DriveEvent}
    (hle : n ≤ trace.length) (hcalls : motionCalls n trace = calls)
    (ha : a ∈ since n trace ++ [e]) (hstate : a.state = .stopped) :
    Over n calls (e :: trace) := by
  refine ⟨Nat.le_succ_of_le hle, ?_, a, ?_, hstate⟩
  · rw [motionCalls, since_cons hle, takeWhile_append_of_mem ha (by simp [hstate])]
    exact hcalls
  · rwa [since_cons hle]

theorem Over.cons {n : ℕ} {calls : List DriveCall} {trace : List DriveEvent}
    (h : Over n calls trace) (e : DriveEvent) : Over n calls (e :: trace) := by
  obtain ⟨a, ha, hstate⟩ := h.stop
  exact over_cons h.le h.calls_eq (List.mem_append_left _ ha) hstate

/-- The motor is stopped or has been, and the calls up to the stop are the given
ones. -/
def Frozen (n : ℕ) (calls : List DriveCall) (d : Drive) : Prop :=
  Over n calls d.trace ∨
    d.currentState = .stopped ∧ n ≤ d.trace.length ∧ motionCalls n d.trace = calls

theorem Frozen.calls_eq {n : ℕ} {calls : List DriveCall} {d : Drive} (h : Frozen n calls d) :
    motionCalls n d.trace = calls := by
  rcases h with h | ⟨-, -, h⟩
  · exact h.calls_eq
  · exact h

/-- Whatever is recorded next, the stop is on record then. -/
theorem Frozen.log {n : ℕ} {calls : List DriveCall} {d : Drive} (h : Frozen n calls d)
    (context : Context) (call : DriveCall) : Over n calls (d.log context call).trace := by
  rcases h with h | ⟨hstate, hle, hcalls⟩
  · exact h.cons _
  · exact over_cons hle hcalls (List.mem_append_right _ List.mem_cons_self) hstate

theorem Frozen.over {n : ℕ} {calls : List DriveCall} {d : Drive} (h : Frozen n calls d)
    (hstate : d.currentState ≠ .stopped) : Over n calls d.trace :=
  h.resolve_right fun hstop => hstate hstop.1

/-! ## What is on record stays -/

section

variable {fl : ℚ → ℚ} {P : List DriveEvent → Prop}

theorem recorded_tickIrq (hP : ∀ e trace, P trace → P (e :: trace)) :
    Stable (tickIrq fl) fun d => P d.trace := by
  intro _ d h
  have hcase := appMotorKinematicTick1ms_cases fl d
  show P (appMotorKinematicTick1ms fl d).trace
  generalize appMotorKinematicTick1ms fl d = d' at hcase
  cases hcase with
  | idle => exact h
  | up => simpa using hP _ _ h
  | reach => simpa using hP _ _ h
  | down => simpa using hP _ _ h
  | halt => exact hP _ _ (hP _ _ h)

theorem profile_recorded (hP : ∀ e trace, P trace → P (e :: trace)) (rpm accel : ℚ)
    (microsteps : BitVec 16) :
    (appMotorCalculateProfile fl rpm accel microsteps).Preserves fun d => P d.trace :=
  ⟨fun _ => id, fun _ => id, fun _ => id, fun _ => id, fun _ => id, fun _ h => hP _ _ h, trivial⟩

theorem startBody_recorded (hP : ∀ e trace, P trace → P (e :: trace)) (direction : BitVec 8) :
    (startBody direction).Preserves fun d => P d.trace :=
  ⟨fun _ h => hP _ _ h, fun _ h => hP _ _ h, fun _ => id, fun _ => id,
    fun d h => by simpa using hP _ _ h, fun _ h => hP _ _ h, trivial⟩

theorem appMotorStart_recorded (hP : ∀ e trace, P trace → P (e :: trace))
    (direction : BitVec 8) : (appMotorStart direction).Preserves fun d => P d.trace :=
  .block_cons (.stmt fun _ h => hP _ _ h) <|
    .block_cons (.branch (startBody_recorded hP direction)
      (.whenever (startBody_recorded hP direction))) <|
    .block_cons (.stmt fun _ => id) .block_nil

theorem appMotorStop_recorded : appMotorStop.Preserves fun d => P d.trace :=
  .branch (.stmt fun _ => id) (.whenever (.stmt fun _ => id))

/-- A start of a stopped motor sets it moving. -/
theorem appMotorStart_moving (direction : BitVec 8) :
    Triple (tickIrq fl) (fun _ => True) (fun d => d.currentState = .stopped)
      (appMotorStart direction) Moving :=
  appMotorStart_of_stopped direction stopped_tickIrq (fun _ _ => trivial) (fun _ => id)
    (fun _ => id) (.stmt fun _ => id) moving_tickIrq (fun _ _ => trivial)
    ((startBody_pins direction).conseq (fun _ => id) fun _ h => h.2)

/-- What further entries cannot undo obeys the rules of a pass. -/
theorem recorded_rules (hP : ∀ e trace, P trace → P (e :: trace)) :
    DriveRules fl (fun _ => True) (fun d => P d.trace) (fun d => P d.trace) where
  stable := recorded_tickIrq hP
  stable_prepared := recorded_tickIrq hP
  imp := fun _ _ => trivial
  imp_prepared := fun _ _ => trivial
  init := fun _ h _ => hP _ _ (hP _ _ h)
  reset := fun _ h => hP _ _ h
  prepare := fun rpm accel microsteps =>
    (Triple.of_preserves (recorded_tickIrq hP) (fun _ _ => trivial)
      (profile_recorded hP rpm accel microsteps)).and <|
    .of_preserves stopped_tickIrq (fun _ _ => trivial) ⟨fun _ => id, fun _ => id, fun _ => id,
      fun _ => id, fun _ => id, fun _ => id, trivial⟩
  start := fun direction =>
    (Triple.of_preserves (recorded_tickIrq hP) (fun _ _ => trivial)
      (appMotorStart_recorded hP direction)).and (appMotorStart_moving direction)
  stop :=
    (Triple.of_preserves (recorded_tickIrq hP) (fun _ _ => trivial) appMotorStop_recorded).and <|
    appMotorStop_of_moving moving_tickIrq (fun _ _ => trivial) (fun _ => id) ending_tickIrq
      (fun _ _ => trivial) fun _ _ => .inl rfl

/-- After a stop, the calls up to it stay what they are. -/
theorem frozen_rules (n : ℕ) (calls : List DriveCall) :
    DriveRules fl (fun _ => True) (Frozen n calls) (fun d => Over n calls d.trace) := by
  have hover := @recorded_rules fl (Over n calls) fun e _ h => h.cons e
  have hstable : Stable (tickIrq fl) (Frozen n calls) := by
    rintro _ d (h | ⟨hstate, h⟩)
    · exact .inl (hover.stable () d h)
    · have htick : tickIrq fl () d = d := appMotorKinematicTick1ms_of_stopped fl hstate
      rw [htick]
      exact .inr ⟨hstate, h⟩
  refine ⟨hstable, hover.stable, fun _ _ => trivial, fun _ _ => trivial, ?_, ?_, ?_, ?_, ?_⟩
  · exact fun d h _ => .inl ((h.log .main (.enable false)).cons _)
  · exact fun d h => .inl (h.log .main .systemReset)
  · intro rpm accel microsteps
    have hprofile : (profileStatements fl rpm accel microsteps).Preserves
        fun d => Frozen n calls d ∧ d.currentState = .stopped :=
      ⟨fun _ => id, fun _ => id, fun _ => id, fun _ => id, fun _ => id, trivial⟩
    refine (Triple.of_preserves (hstable.and stopped_tickIrq) (fun _ _ => trivial) hprofile).seq ?_
    exact .stmt (hstable.and stopped_tickIrq) (fun _ _ => trivial)
      (hover.stable.and stopped_tickIrq) (fun _ _ => trivial) fun d h => ⟨h.1.log _ _, h.2⟩
  · intro direction
    exact (hover.start direction).conseq (fun _ => id) fun _ h => ⟨.inl h.1, h.2⟩
  · exact hover.stop.conseq (fun d h => ⟨h.1.over h.2.ne_stopped, h.2⟩) fun _ h => ⟨.inl h.1, h.2⟩

end

/-! ## The record grows -/

section

variable {fl : ℚ → ℚ} {crc : List (BitVec 32) → BitVec 32} {P : List DriveEvent → Prop}

theorem motorStateMachine_recorded (hP : ∀ e trace, P trace → P (e :: trace)) :
    (motorStateMachine fl).Preserves fun w => P w.drive.trace := by
  have hdrive : ∀ {c : Code Drive}, c.Preserves (fun d => P d.trace) →
      (onDrive c).Preserves fun w => P w.drive.trace :=
    fun hc => .lift (fun _ _ => rfl) hc
  have hstart : (startMotor fl).Preserves fun w => P w.drive.trace :=
    .pair (fun _ => hdrive (profile_recorded hP _ _ _)) fun _ =>
      hdrive (appMotorStart_recorded hP _)
  exact motorStateMachine_preserves fl (fun _ _ => id) hstart (hdrive appMotorStop_recorded)

theorem pass_recorded (hP : ∀ e trace, P trace → P (e :: trace)) (input : PassInput) :
    (pass fl crc input).Preserves fun w => P w.drive.trace := by
  have hnetwork : (mxLwipProcess fl input.deliveries).Preserves fun w => P w.drive.trace :=
    mxLwipProcess_preserves fl (fun _ _ _ => id) input.deliveries
  have hkeep : ∀ {c : Code World}, c.Keeps World.motion →
      c.Preserves fun w => P w.drive.trace :=
    fun hc => hc.preserves fun v => P v.drive.trace
  have hperipheral := peripheralCommands_keep_motion
  simp only [List.mem_cons, List.not_mem_nil, or_false, forall_eq_or_imp, forall_eq]
    at hperipheral
  obtain ⟨hstreamStart, hstreamStop, hbaud, hdir⟩ := hperipheral
  have hpair : ∀ {b : World → Bool} {f g : World → World},
      (∀ w, (f w).drive = w.drive) → (∀ w, (g w).drive = w.drive) →
      (Code.whenever b (.block [.stmt f, .stmt g])).Preserves fun w => P w.drive.trace :=
    fun hf hg => (Code.Keeps.whenever_pair hf hg).preserves fun d => P d.trace
  exact .block_cons hnetwork <| .block_cons ⟨fun _ => id, fun _ => id, trivial⟩ <|
    .block_cons (hkeep (saveCommand_keeps_motion _)) <|
    .block_cons (.block_cons (hpair (fun _ => rfl) fun _ => rfl) <|
      .block_cons (hpair (fun _ => rfl) fun _ => rfl) <|
      .block_cons (hpair (fun _ => rfl) fun _ => rfl) <|
      .block_cons (hkeep hstreamStart) <| .block_cons (hkeep hstreamStop) <|
      .block_cons (hkeep hbaud) <| .block_cons (hkeep hdir) <|
      .block_cons (.whenever ⟨fun _ => id, fun _ => id, fun _ h => hP _ _ h, trivial⟩)
        .block_nil) <|
    .block_cons (motorStateMachine_recorded hP) .block_nil

theorem boot_recorded (hP : ∀ e trace, P trace → P (e :: trace)) (repair : Outcomes 12) :
    (boot crc repair).Preserves fun w => P w.drive.trace :=
  boot_preserves (P := fun v => P v.drive.trace) repair (fun _ h => hP _ _ (hP _ _ h))
    (fun _ => id) fun _ => id

/-- What further entries cannot undo, a longer run does not undo. -/
theorem runFrom_recorded (hP : ∀ e trace, P trace → P (e :: trace)) (start : PowerUp)
    (before after : List (Event Bool PassInput))
    (h : P (runFrom fl crc start before).state.drive.trace) :
    P (runFrom fl crc start (before ++ after)).state.drive.trace := by
  have hstable : Stable (firmware fl crc).irq fun w => P w.drive.trace :=
    stable_drive (recorded_tickIrq hP)
  have hcode := (@System.run_preserves _ _ _ (firmware fl crc) _ hstable
    (fun input => pass_recorded hP input) (start.config crc) (boot_recorded hP start.repair)
    before).1
  rw [runFrom, System.run_append]
  exact (System.run_preserves hstable (fun input => pass_recorded hP input) hcode after).2 h

end

/-! ## What decides on the motion -/

/-- What decides on the motion while the motor is not started, and with the modes of the
lamps on the number of statements of a pass. -/
structure Core where
  drive : Drive
  switch : Switch
  lastSwitchState : Bool
  currentSwitchState : Bool
  sysMotorRunRequest : Bool
  motorState : MotorState
  pendingMotorStart : Bool
  pendingMotorStop : Bool
  lamps : Lamps

/-- The core of a motion view and the lamps. -/
def MotionView.core (v : MotionView) (lamps : Lamps) : Core where
  drive := v.drive
  switch := v.switch
  lastSwitchState := v.lastSwitchState
  currentSwitchState := v.currentSwitchState
  sysMotorRunRequest := v.sysMotorRunRequest
  motorState := v.motorState
  pendingMotorStart := v.pendingMotorStart
  pendingMotorStop := v.pendingMotorStop
  lamps := lamps

/-- The core of a state. -/
def World.core (w : World) : Core :=
  w.motion.core w.lamps

namespace Core

/-- A tick, as the core sees it. -/
def tick (fl : ℚ → ℚ) (pin : Bool) (k : Core) : Core :=
  { k with
    drive := appMotorKinematicTick1ms fl k.drive
    switch := appSwitchTick1ms pin k.switch
    lamps := appLampTick1ms k.lamps }

/-- The core without the flags of the motor commands. -/
def unflagged (k : Core) : Core :=
  { k with pendingMotorStart := false, pendingMotorStop := false }

theorem eq_of_unflagged {k l : Core} (h : k.unflagged = l.unflagged)
    (hstart : k.pendingMotorStart = l.pendingMotorStart)
    (hstop : k.pendingMotorStop = l.pendingMotorStop) : k = l := by
  cases k
  cases l
  simp_all [unflagged]

end Core

/-- Code that leaves the motion view and the lamps alone leaves the core alone. -/
theorem keeps_core {c : Code World} (hc : c.Keeps fun w => (w.motion, w.lamps)) :
    c.Keeps World.core :=
  fun k => hc.preserves fun a => a.1.core a.2 = k

section

variable {fl : ℚ → ℚ} {crc : List (BitVec 32) → BitVec 32} {ops : Outcomes 12}
  {w w' v v' : World} {ts us : List (Turn Bool)}

theorem sysTickHandler_core (pin : Bool) (w : World) :
    (sysTickHandler fl pin w).core = w.core.tick fl pin := by
  have hswitch : (sysTickHandler fl pin w).switch = appSwitchTick1ms pin w.switch := by
    simp only [sysTickHandler, switchTick]
    split <;> rfl
  simp only [World.core, World.motion, MotionView.core, Core.tick, sysTickHandler_ctl,
    sysTickHandler_drive, sysTickHandler_lamps, hswitch]

/-- Ticks take equal cores to equal cores. -/
theorem tick_core (pin : Bool) (w v : World) (h : w.core = v.core) :
    (sysTickHandler fl pin w).core = (sysTickHandler fl pin v).core := by
  rw [sysTickHandler_core, sysTickHandler_core, h]

/-- Code that leaves the core to the ticks: the number of ticks and their levels
decide. -/
theorem core_of_keeps {c k : Code World} (h : Completes (sysTickHandler fl) c w ts .returned w')
    (h' : Completes (sysTickHandler fl) k v us .returned v') (hc : c.Keeps World.core)
    (hk : k.Keeps World.core) (hticks : handled ts = handled us) (hcore : w.core = v.core) :
    w'.core = v'.core := by
  rw [h.keeps sysTickHandler_core hc, h'.keeps sysTickHandler_core hk, hticks, hcore]

/-- The flags of the motor commands after the network processing. -/
theorem network_pending {deliveries : List (Pbuf × (ℕ → ReadInputs))}
    (h : Completes (sysTickHandler fl) (mxLwipProcess fl deliveries) w ts .returned w') :
    let cmds := (deliveries.filterMap fun d => d.1.command).filter (·.1 = .motorCtrl)
    w'.ctl.mb.pendingMotorStart =
        (w.ctl.mb.pendingMotorStart || cmds.any (startAsked .motorCtrl)) ∧
      w'.ctl.mb.pendingMotorStop =
        (w.ctl.mb.pendingMotorStop || cmds.any (stopAsked .motorCtrl)) := by
  have hfilter : ∀ (cmds : List (Register × BitVec 16)) (q : Register × BitVec 16 → Bool),
      (∀ c, q c = true → c.1 = .motorCtrl) →
        (cmds.filter (·.1 = .motorCtrl)).any q = cmds.any q := by
    intro cmds q hq
    rw [List.any_filter]
    congr 1
    funext c
    cases hc : q c with
    | false => exact Bool.and_false _
    | true => simp [hq c hc]
  intro cmds
  have harbiter := (h.wp_post (mxLwipProcess_arbiter deliveries w.arbiter w rfl)).2 rfl
  rw [Arbiter.receiveAll] at harbiter
  constructor
  · rw [hfilter _ (startAsked .motorCtrl) fun c hc => by simp_all [startAsked]]
    exact congrArg Arbiter.pendingMotorStart harbiter
  · rw [hfilter _ (stopAsked .motorCtrl) fun c hc => by simp_all [stopAsked]]
    exact congrArg Arbiter.pendingMotorStop harbiter

/-- The network processing with the same motor commands. -/
theorem network_core {deliveries deliveries' : List (Pbuf × (ℕ → ReadInputs))}
    (h : Completes (sysTickHandler fl) (mxLwipProcess fl deliveries) w ts .returned w')
    (h' : Completes (sysTickHandler fl) (mxLwipProcess fl deliveries') v us .returned v')
    (hcmds : (deliveries.filterMap fun d => d.1.command).filter (·.1 = .motorCtrl) =
      (deliveries'.filterMap fun d => d.1.command).filter (·.1 = .motorCtrl))
    (hticks : handled ts = handled us) (hcore : w.core = v.core) : w'.core = v'.core := by
  have hkeeps : ∀ ds, (mxLwipProcess fl ds).Keeps fun w => w.core.unflagged :=
    fun ds k => mxLwipProcess_preserves fl (fun _ _ _ hw => hw) ds
  have htick : ∀ (pin : Bool) (w : World),
      (sysTickHandler fl pin w).core.unflagged = w.core.unflagged.tick fl pin := by
    intro pin w
    rw [sysTickHandler_core]
    rfl
  obtain ⟨hstart, hstop⟩ := network_pending h
  obtain ⟨hstart', hstop'⟩ := network_pending h'
  rw [hcmds] at hstart hstop
  apply Core.eq_of_unflagged
  · rw [h.keeps htick (hkeeps _), h'.keeps htick (hkeeps _), hticks, hcore]
  · have hbefore : w.ctl.mb.pendingMotorStart = v.ctl.mb.pendingMotorStart :=
      congrArg Core.pendingMotorStart hcore
    exact hstart.trans (hbefore ▸ hstart'.symm)
  · have hbefore : w.ctl.mb.pendingMotorStop = v.ctl.mb.pendingMotorStop :=
      congrArg Core.pendingMotorStop hcore
    exact hstop.trans (hbefore ▸ hstop'.symm)

theorem sampleInputs_determined : sampleInputs.Determined World.core :=
  .block_cons (.stmt_of (fun k => { k with currentSwitchState := appSwitchGetState k.switch })
    fun _ => rfl) <|
    .block_cons (.stmt_of (fun k => { k with motorState := k.drive.currentState })
      fun _ => rfl) .block_nil

/-- The three decisions on the run request. -/
def arbitration : Code World :=
  .block [switchEdge, motorStartCommand, motorStopCommand]

theorem arbitration_determined : arbitration.Determined World.core := by
  have hwhenever : ∀ (b : World → Bool) (k : Core → Bool) (body : Code World),
      (∀ w, b w = k w.core) → body.Determined World.core →
      (Code.whenever b body).Determined World.core :=
    fun b k body hb hbody => .whenever (fun w v h => by rw [hb, hb, h]) hbody
  refine .block_cons (hwhenever _ (fun k => k.currentSwitchState != k.lastSwitchState) _
    (fun _ => rfl) ?_) <| .block_cons (hwhenever _ (·.pendingMotorStart) _ (fun _ => rfl) ?_) <|
    .block_cons (hwhenever _ (·.pendingMotorStop) _ (fun _ => rfl) ?_) .block_nil
  · exact .block_cons (.stmt_of (fun k => { k with lastSwitchState := k.currentSwitchState })
      fun _ => rfl) <| .block_cons
      (.stmt_of (fun k => { k with sysMotorRunRequest := k.currentSwitchState })
        fun _ => rfl) .block_nil
  · exact .block_cons (.stmt_of ({ · with pendingMotorStart := false }) fun _ => rfl) <|
      .block_cons (.stmt_of ({ · with sysMotorRunRequest := true }) fun _ => rfl) .block_nil
  · exact .block_cons (.stmt_of ({ · with pendingMotorStop := false }) fun _ => rfl) <|
      .block_cons (.stmt_of ({ · with sysMotorRunRequest := false }) fun _ => rfl) .block_nil

/-- The commands for the stream, the UART and the encoder. -/
def peripherals : Code World :=
  .block [streamStartCommand, streamStopCommand, baudChangeCommand, encoderDirCommand]

theorem peripherals_keeps : peripherals.Keeps fun w => (w.motion, w.lamps) := by
  have hcommands := peripheralCommands_keep
  simp only [List.mem_cons, List.not_mem_nil, or_false, forall_eq_or_imp, forall_eq] at hcommands
  obtain ⟨hstreamStart, hstreamStop, hbaud, hdir⟩ := hcommands
  exact .block_cons hstreamStart <| .block_cons hstreamStop <| .block_cons hbaud <|
    .block_cons hdir .block_nil

/-- A reboot command that returns has done nothing. -/
theorem rebootCommand_core (h : Completes (sysTickHandler fl) rebootCommand w ts .returned w')
    (h' : Completes (sysTickHandler fl) rebootCommand v us .returned v')
    (hticks : handled ts = handled us) (hcore : w.core = v.core) : w'.core = v'.core :=
  core_of_keeps (h.whenever_resets trivial) (h'.whenever_resets trivial) (fun _ _ => trivial)
    (fun _ _ => trivial) hticks hcore

/-- The code for a motor that was not sampled as stopped. -/
theorem machine_core {m : MotorState} (hm : m ≠ .stopped)
    (h : Completes (sysTickHandler fl) (motorStateMachine fl) w ts .returned w')
    (h' : Completes (sysTickHandler fl) (motorStateMachine fl) v ts .returned v')
    (hstate : w.ctl.motorState = m) (hcore : w.core = v.core) : w'.core = v'.core := by
  have hlamp : ∀ mode, (setLamp mode).Determined World.core := by
    refine fun mode => .lift (fun _ _ h => congrArg Core.lamps h) (fun lamps w v h => ?_) _
    exact congrArg (fun k : Core => { k with lamps := lamps }) h
  have hstop : stopUnlessRequested.Determined World.core := by
    refine .whenever (fun w v h => ?_) <|
      .lift (fun _ _ h => congrArg Core.drive h) (fun d w v h => ?_) appMotorStop
    · exact congrArg (fun k : Core => !k.sysMotorRunRequest) h
    · exact congrArg (fun k : Core => { k with drive := d }) h
  have hstable : Stable (sysTickHandler fl) fun w => w.ctl.motorState = m := by
    intro pin w hw
    rwa [sysTickHandler_ctl]
  obtain ⟨w₁, v₁, rest, hstate₁, hcore₁, h₁, h₁'⟩ :=
    h.eval_lockstep h' tick_core hstable hstate hcore
  have hstate₁' : v₁.ctl.motorState = m :=
    (congrArg Core.motorState hcore₁).symm.trans hstate₁
  simp only [hstate₁] at h₁
  simp only [hstate₁'] at h₁'
  cases m with
  | stopped => exact absurd rfl hm
  | accelerating =>
      exact h₁.lockstep h₁' tick_core
        (.block_cons (hlamp .blinkFast) <| .block_cons hstop .block_nil) hcore₁
  | cruising =>
      exact h₁.lockstep h₁' tick_core
        (.block_cons (hlamp .on) <| .block_cons hstop .block_nil) hcore₁
  | decelerating => exact h₁.lockstep h₁' tick_core (hlamp .blinkFast) hcore₁

/-! ## Passes with timed stages -/

/-- The stages of a pass. -/
def passStages (fl : ℚ → ℚ) (crc : List (BitVec 32) → BitVec 32) (input : PassInput) :
    List (Code World) :=
  [mxLwipProcess fl input.deliveries, sampleInputs, saveCommand crc input.save, arbitration,
    peripherals, rebootCommand, motorStateMachine fl]

theorem pass_eq_stages (input : PassInput) :
    pass fl crc input = .block (passStages fl crc input) := by
  have hcommands : commands = arbitration.seq (peripherals.seq rebootCommand) := by
    have hsplit : commands = Code.block ([switchEdge, motorStartCommand, motorStopCommand] ++
        ([streamStartCommand, streamStopCommand, baudChangeCommand, encoderDirCommand] ++
          [rebootCommand])) := rfl
    rw [hsplit, Code.block_append, Code.block_append, Code.block_singleton]
    rfl
  simp only [pass, passStages, Code.block_cons, hcommands, Code.seq_assoc]

/-- The turns of a pass, stage by stage. -/
structure PassTiming where
  network : List (Turn Bool)
  sampling : List (Turn Bool)
  saving : List (Turn Bool)
  arbitration : List (Turn Bool)
  peripherals : List (Turn Bool)
  reboot : List (Turn Bool)
  machine : List (Turn Bool)

/-- The turns in the order of the stages. -/
def PassTiming.stages (t : PassTiming) : List (List (Turn Bool)) :=
  [t.network, t.sampling, t.saving, t.arbitration, t.peripherals, t.reboot, t.machine]

/-- The ticks lie between the same statements where the statements do not depend on
the parameters, and are as many with the same switch levels where they do. -/
structure SamePlacement (t t' : PassTiming) : Prop where
  network : handled t.network = handled t'.network
  sampling : t.sampling = t'.sampling
  saving : handled t.saving = handled t'.saving
  arbitration : t.arbitration = t'.arbitration
  peripherals : handled t.peripherals = handled t'.peripherals
  reboot : handled t.reboot = handled t'.reboot
  machine : t.machine = t'.machine

/-- A pass with its input and its turns. -/
structure TimedPass where
  input : PassInput
  timing : PassTiming

/-- The same motor commands and the same placement of ticks; any other commands. -/
structure TimedPass.Same (p p' : TimedPass) : Prop where
  motorCommands : p.input.commands.filter (·.1 = .motorCtrl) =
    p'.input.commands.filter (·.1 = .motorCtrl)
  placement : SamePlacement p.timing p'.timing

/-- The events of a pass. -/
def TimedPass.events (p : TimedPass) : List (Event Bool PassInput) :=
  .enter p.input :: p.timing.stages.flatten.map Turn.event

/-- The events of passes in a row. -/
def schedule (ps : List TimedPass) : List (Event Bool PassInput) :=
  ps.flatMap TimedPass.events

/-- Passes in a row, each through its stages with the turns given for them. -/
def TimedRun (fl : ℚ → ℚ) (crc : List (BitVec 32) → BitVec 32) :
    World → List TimedPass → World → Prop
  | w, [], w' => w = w'
  | w, p :: ps, w' => ∃ w₁, Staged (sysTickHandler fl) (passStages fl crc p.input) w
      p.timing.stages w₁ ∧ TimedRun fl crc w₁ ps w'

/-- The state at the end of a timed run, if the passes go through their stages with
the turns given for them. -/
def timedRun (fl : ℚ → ℚ) (crc : List (BitVec 32) → BitVec 32) (ps : List TimedPass) (w : World) :
    Option World :=
  ps.foldlM (fun w p => executeStages (sysTickHandler fl) (passStages fl crc p.input)
    p.timing.stages w) w

theorem timedRun_sound {ps : List TimedPass} (h : (timedRun fl crc ps w).isSome) :
    ∃ w', TimedRun fl crc w ps w' := by
  induction ps generalizing w with
  | nil => exact ⟨w, rfl⟩
  | cons p ps ih =>
      obtain ⟨w', h⟩ := Option.isSome_iff_exists.mp h
      rw [timedRun, List.foldlM_cons] at h
      obtain ⟨w₁, hpass, hrest⟩ := Option.bind_eq_some_iff.mp h
      obtain ⟨v, hv⟩ := ih (Option.isSome_iff_exists.mpr ⟨w', hrest⟩)
      exact ⟨v, w₁, staged_of_execute hpass, hv⟩

/-- A timed run is a run. -/
theorem TimedRun.run {ps : List TimedPass} (h : TimedRun fl crc w ps w') :
    (firmware fl crc).run (schedule ps) ⟨.done, w⟩ = ⟨.done, w'⟩ := by
  induction ps generalizing w with
  | nil =>
      obtain rfl : w = w' := h
      rfl
  | cons p ps ih =>
      obtain ⟨w₁, hpass, hrest⟩ := h
      have hcompletes := hpass.completes
      rw [← pass_eq_stages] at hcompletes
      have hrun := @System.run_of_completes _ _ _ (firmware fl crc) _ _ _ _ _ hcompletes
      rw [schedule, List.flatMap_cons, System.run_append, TimedPass.events, System.run_cons]
      exact (congrArg _ hrun).trans (ih hrest)

/-- Every pass that returns is timed, wherever its ticks land. -/
theorem exists_timing {input : PassInput} {during : List (Event Bool PassInput)}
    (hduring : ∀ e ∈ during, e.isEnter = false)
    (h : (firmware fl crc).run during ⟨pass fl crc input, w⟩ = ⟨.done, w'⟩) :
    ∃ t : PassTiming, Staged (sysTickHandler fl) (passStages fl crc input) w t.stages w' := by
  obtain ⟨ts, hts⟩ := System.exists_completes (r := .returned) hduring h
  have hblock : Completes (sysTickHandler fl) (.block (passStages fl crc input)) w ts .returned
      w' := by
    rw [← pass_eq_stages]
    exact hts
  obtain ⟨tss, -, hstaged⟩ := Staged.of_completes (by simp [passStages]) hblock
  have hlength := hstaged.length_eq
  match tss, hlength with
  | [a, b, c, d, e, f, g], _ => exact ⟨⟨a, b, c, d, e, f, g⟩, hstaged⟩

/-! ## Two runs -/

/-- The sampled state bounds the real one until the state machine decides. -/
theorem sampled_before_machine {A B : Drive → Prop} (h : DriveRules fl (fun _ => True) A B)
    {deliveries : List (Pbuf × (ℕ → ReadInputs))} {t : PassTiming} {w₁ w₂ w₃ w₄ w₅ : World}
    (h₁ : Completes (sysTickHandler fl) (mxLwipProcess fl deliveries) w t.network .returned w₁)
    (h₂ : Completes (sysTickHandler fl) sampleInputs w₁ t.sampling .returned w₂)
    (h₃ : Completes (sysTickHandler fl) (saveCommand crc ops) w₂ t.saving .returned w₃)
    (h₄ : Completes (sysTickHandler fl) arbitration w₃ t.arbitration .returned w₄)
    (h₅ : Completes (sysTickHandler fl) peripherals w₄ t.peripherals .returned w₅)
    (h₆ : Completes (sysTickHandler fl) rebootCommand w₅ t.reboot .returned w')
    (hA : A w.drive) : Sampled A w'.motion := by
  have hstable := sampled_stable h
  have hnetwork : (mxLwipProcess fl deliveries).Preserves fun w => A w.drive :=
    mxLwipProcess_preserves fl (fun _ _ _ hw => hw) deliveries
  have hsampling : Triple (sysTickHandler fl) (fun _ => True) (fun w => A w.drive) sampleInputs
      fun w => Sampled A w.motion :=
    .act (stable_drive h.stable) (fun _ _ => trivial) (R := fun w => A w.drive) (fun _ hw => hw) <|
      .stmt (stable_drive h.stable) (fun _ _ => trivial) hstable (fun _ _ => trivial)
        fun w hw => ⟨hw, snapshot_self w.drive⟩
  have harbitration : arbitration.Preserves fun w => Sampled A w.motion :=
    .block_cons (.whenever ⟨fun _ hw => hw, fun _ hw => hw, trivial⟩) <|
      .block_cons (.whenever ⟨fun _ hw => hw, fun _ hw => hw, trivial⟩) <|
      .block_cons (.whenever ⟨fun _ hw => hw, fun _ hw => hw, trivial⟩) .block_nil
  have hreboot : rebootCommand.Preserves fun w => Sampled A w.motion :=
    .whenever ⟨fun _ hw => hw, fun _ hw => hw, fun w hw => ⟨h.reset w.drive hw.1, hw.2⟩, trivial⟩
  have hA₁ := h₁.preserves (stable_drive h.stable) hnetwork hA
  have hsampled₂ := (h₂.wp_post (hsampling w₁ hA₁)).2 rfl
  have hsampled₃ := h₃.preserves hstable ((saveCommand_keeps_motion ops).preserves _) hsampled₂
  have hsampled₄ := h₄.preserves hstable harbitration hsampled₃
  have hsampled₅ := h₅.preserves hstable
    (peripherals_keeps.preserves fun a => Sampled A a.1) hsampled₄
  exact h₆.preserves hstable hreboot hsampled₅

/-- What two runs have in common between two passes: the same core, or both motors
have stopped after the same calls. -/
structure Related (n : ℕ) (w v : World) : Prop where
  left : Settled (fun d => n ≤ d.trace.length) w.motion
  right : Settled (fun d => n ≤ d.trace.length) v.motion
  same : w.core = v.core ∨ ∃ calls, Frozen n calls w.drive ∧ Frozen n calls v.drive

theorem Related.motionCalls_eq {n : ℕ} (h : Related n w v) :
    motionCalls n w.drive.trace = motionCalls n v.drive.trace := by
  rcases h.same with hcore | ⟨calls, hw, hv⟩
  · have hdrive : w.drive = v.drive := congrArg Core.drive hcore
    rw [hdrive]
  · rw [hw.calls_eq, hv.calls_eq]

/-- The rules for the length of the record. -/
theorem length_rules (fl : ℚ → ℚ) (n : ℕ) :
    DriveRules fl (fun _ => True) (fun d => n ≤ d.trace.length) (fun d => n ≤ d.trace.length) :=
  @recorded_rules fl (fun trace => n ≤ trace.length) fun _ _ => Nat.le_succ_of_le

/-- What the rules of a pass keep, a timed pass keeps. -/
theorem staged_settled {A B : Drive → Prop} (h : DriveRules fl (fun _ => True) A B)
    {input : PassInput} {t : PassTiming}
    (hpass : Staged (sysTickHandler fl) (passStages fl crc input) w t.stages w')
    (hw : Settled A w.motion) : Settled A w'.motion := by
  have hcompletes := hpass.completes
  rw [← pass_eq_stages] at hcompletes
  exact (hcompletes.wp_post (pass_follows h input w hw)).2 rfl

/-- The state machine, on equal cores: if the motor is stopped, the calls up to the
stop are settled, whatever the parameters are; otherwise the cores stay equal. -/
theorem machine_related {n : ℕ} (hsampled : Sampled (fun d => n ≤ d.trace.length) w.motion)
    (h : Completes (sysTickHandler fl) (motorStateMachine fl) w ts .returned w')
    (h' : Completes (sysTickHandler fl) (motorStateMachine fl) v ts .returned v')
    (hcore : w.core = v.core) :
    w'.core = v'.core ∨ ∃ calls, Frozen n calls w'.drive ∧ Frozen n calls v'.drive := by
  by_cases hstate : w.ctl.motorState = .stopped
  · right
    obtain ⟨hle, hsnapshot⟩ := hsampled
    have hstopped : w.drive.currentState = .stopped := by
      have hbound : Snapshot w.ctl.motorState w.drive := hsnapshot
      rwa [hstate] at hbound
    have hfrozen : Frozen n (motionCalls n w.drive.trace) w.drive := .inr ⟨hstopped, hle, rfl⟩
    have hdrive : v.drive = w.drive := (congrArg Core.drive hcore).symm
    have hsnapshot' : Snapshot v.ctl.motorState v.drive := by
      rw [hdrive, ← show w.ctl.motorState = v.ctl.motorState from congrArg Core.motorState hcore]
      exact hsnapshot
    have hmachine := @motorStateMachine_follows fl _ _ _
      (frozen_rules n (motionCalls n w.drive.trace))
    have hleft := (h.wp_post (hmachine w ⟨hfrozen, hsnapshot⟩)).2 rfl
    have hright := (h'.wp_post (hmachine v ⟨hdrive ▸ hfrozen, hsnapshot'⟩)).2 rfl
    exact ⟨_, hleft.1, hright.1⟩
  · exact .inl (machine_core hstate h h' rfl hcore)

/-- One pass in both runs. -/
theorem Related.pass {n : ℕ} {p p' : TimedPass} (hrel : Related n w v) (hsame : p.Same p')
    (h : Staged (sysTickHandler fl) (passStages fl crc p.input) w p.timing.stages w')
    (h' : Staged (sysTickHandler fl) (passStages fl crc p'.input) v p'.timing.stages v') :
    Related n w' v' := by
  refine ⟨staged_settled (length_rules fl n) h hrel.left,
    staged_settled (length_rules fl n) h' hrel.right, ?_⟩
  rcases hrel.same with hcore | ⟨calls, hw, hv⟩
  · obtain ⟨hcmds, hplace⟩ := hsame
    obtain ⟨w₁, h₁, h⟩ := h.cons_inv
    obtain ⟨w₂, h₂, h⟩ := h.cons_inv
    obtain ⟨w₃, h₃, h⟩ := h.cons_inv
    obtain ⟨w₄, h₄, h⟩ := h.cons_inv
    obtain ⟨w₅, h₅, h⟩ := h.cons_inv
    obtain ⟨w₆, h₆, h⟩ := h.cons_inv
    obtain ⟨v₁, h₁', h'⟩ := h'.cons_inv
    obtain ⟨v₂, h₂', h'⟩ := h'.cons_inv
    obtain ⟨v₃, h₃', h'⟩ := h'.cons_inv
    obtain ⟨v₄, h₄', h'⟩ := h'.cons_inv
    obtain ⟨v₅, h₅', h'⟩ := h'.cons_inv
    obtain ⟨v₆, h₆', h'⟩ := h'.cons_inv
    -- the cores agree after every stage before the state machine
    have hcore₁ := network_core h₁ h₁' hcmds hplace.network hcore
    have hcore₂ : w₂.core = v₂.core :=
      h₂.lockstep (hplace.sampling ▸ h₂') tick_core sampleInputs_determined hcore₁
    have hsave : ∀ ops, (saveCommand crc ops).Keeps World.core :=
      saveCommand_keeps crc (fun _ => rfl) (fun _ => rfl) fun _ _ => rfl
    have hcore₃ := core_of_keeps h₃ h₃' (hsave _) (hsave _) hplace.saving hcore₂
    have hcore₄ : w₄.core = v₄.core :=
      h₄.lockstep (hplace.arbitration ▸ h₄') tick_core arbitration_determined hcore₃
    have hcore₅ := core_of_keeps h₅ h₅' (keeps_core peripherals_keeps)
      (keeps_core peripherals_keeps) hplace.peripherals hcore₄
    have hcore₆ := rebootCommand_core h₆ h₆' hplace.reboot hcore₅
    exact machine_related (sampled_before_machine (length_rules fl n) h₁ h₂ h₃ h₄ h₅ h₆
      hrel.left.1) h.last_inv (hplace.machine ▸ h'.last_inv) hcore₆
  · have hleft := staged_settled (frozen_rules n calls) h ⟨hw, hrel.left.2⟩
    have hright := staged_settled (frozen_rules n calls) h' ⟨hv, hrel.right.2⟩
    exact .inr ⟨calls, hleft.1, hright.1⟩

/-- Passes in a row in both runs. -/
theorem TimedRun.related {n : ℕ} {ps ps' : List TimedPass}
    (hsame : List.Forall₂ TimedPass.Same ps ps') (hrel : Related n w v)
    (h : TimedRun fl crc w ps w') (h' : TimedRun fl crc v ps' v') : Related n w' v' := by
  induction hsame generalizing w v with
  | nil =>
      obtain rfl : w = w' := h
      obtain rfl : v = v' := h'
      exact hrel
  | cons hpass _ ih =>
      obtain ⟨w₁, h₁, h⟩ := h
      obtain ⟨v₁, h₁', h'⟩ := h'
      exact ih (hrel.pass hpass h₁ h₁') h h'

end

/-! ## Main result -/

/-- Two runs go on from a common state of any run, with common events to the end of
the pass, and then pass by pass with the same motor commands, the same switch levels
and the same placement of ticks.  Whatever else is written in the passes, the motor
calls from the common state until the motor is next stopped are the same. -/
theorem motion_in_progress (fl : ℚ → ℚ) (crc : List (BitVec 32) → BitVec 32) (start : PowerUp)
    (before lead : List (Event Bool PassInput)) (ps ps' : List TimedPass)
    (hready : (runFrom fl crc start (before ++ lead)).code = .done)
    (hsame : List.Forall₂ TimedPass.Same ps ps')
    (htimed : ∃ w, TimedRun fl crc (runFrom fl crc start (before ++ lead)).state ps w)
    (htimed' : ∃ w, TimedRun fl crc (runFrom fl crc start (before ++ lead)).state ps' w) :
    let n := (runFrom fl crc start before).state.drive.trace.length
    let after := fun ps => (runFrom fl crc start (before ++ lead ++ schedule ps)).state
    motionCalls n (after ps).drive.trace = motionCalls n (after ps').drive.trace := by
  intro n after
  have hlength : n ≤ (runFrom fl crc start (before ++ lead)).state.drive.trace.length :=
    runFrom_recorded (P := fun trace => n ≤ trace.length) (fun _ _ => Nat.le_succ_of_le) start
      before lead le_rfl
  have hpins : Pins .powerUp := by simp [Pins, Drive.powerUp]
  have hfollows := ((runFrom_follows (pins_rules fl) hpins start (before ++ lead)).2 hready).2
  have hrun : ∀ {ps : List TimedPass} {w : World},
      TimedRun fl crc (runFrom fl crc start (before ++ lead)).state ps w → after ps = w := by
    intro ps w h
    have hconfig : runFrom fl crc start (before ++ lead) =
        ⟨.done, (runFrom fl crc start (before ++ lead)).state⟩ := by
      rw [← hready]
    show (runFrom fl crc start (before ++ lead ++ schedule ps)).state = w
    rw [runFrom, System.run_append]
    show ((firmware fl crc).run (schedule ps) (runFrom fl crc start (before ++ lead))).state = w
    rw [hconfig, h.run]
  obtain ⟨w, hw⟩ := htimed
  obtain ⟨w', hw'⟩ := htimed'
  rw [hrun hw, hrun hw']
  exact (TimedRun.related hsame ⟨⟨hlength, hfollows⟩, ⟨hlength, hfollows⟩, .inl rfl⟩ hw
    hw').motionCalls_eq

/-- A pass that lights the lamp and has nothing else to do, undisturbed. -/
def idlePass : PassTiming where
  network := []
  sampling := List.replicate 2 .main
  saving := [.main]
  arbitration := List.replicate 3 .main
  peripherals := List.replicate 4 .main
  reboot := [.main]
  machine := List.replicate 6 .main

/-- The turns of a pass that stops the motor, with a tick at the start and the tick
that ends the ramp. -/
def stopPass : PassTiming :=
  { idlePass with
    network := [.irq true, .main]
    arbitration := List.replicate 5 .main
    machine := List.replicate 6 .main ++ [.irq true] }

/-- Another speed and direction, then a stop. -/
def writesThenStop : List TimedPass :=
  [⟨writes [(.motorRpm, 300), (.motorDir, 1)], { idlePass with network := [.main, .main] }⟩,
    ⟨writes [(.motorCtrl, 0)], stopPass⟩]

/-- Nothing, then a stop and a save in one batch. -/
def stopAndSave : List TimedPass :=
  [⟨writes [], idlePass⟩,
    ⟨writes [(.motorCtrl, 0), (.saveSettings, 1)],
      { stopPass with
        network := [.main, .irq true, .main]
        saving := List.replicate 5 .main }⟩]

/-- The two ways to stop a motor that cruises: the timer is stopped and the driver
disabled. -/
theorem motion_in_progress_stop :
    let n :=
      (runFrom id (fun _ => 0) (emptyFlash false) (cruiseAndThen [])).state.drive.trace.length
    motionCalls n (runFrom id (fun _ => 0) (emptyFlash false)
      (cruiseAndThen [] ++ [] ++ schedule writesThenStop)).state.drive.trace =
        [.stopTimer, .enable false] := by
  have hsame : List.Forall₂ TimedPass.Same writesThenStop stopAndSave :=
    .cons ⟨by decide +kernel, ⟨rfl, rfl, rfl, rfl, rfl, rfl, rfl⟩⟩ <|
      .cons ⟨by decide +kernel, ⟨rfl, rfl, rfl, rfl, rfl, rfl, rfl⟩⟩ .nil
  have hready : (runFrom id (fun _ => 0) (emptyFlash false) (cruiseAndThen [] ++ [])).code =
      .done :=
    Code.returned_iff.mp (by decide +kernel)
  have hcalls := motion_in_progress id (fun _ => 0) (emptyFlash false) (cruiseAndThen []) []
    writesThenStop stopAndSave hready hsame (timedRun_sound (by decide +kernel))
    (timedRun_sound (by decide +kernel))
  dsimp only at hcalls ⊢
  rw [hcalls]
  decide +kernel

end Firmware
end MDCMotorControl
