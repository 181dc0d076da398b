import MDCMotorControl.Firmware.RunRequest
import MDCMotorControl.Library.Monitor

/-!
# The order of the calls to the driver

The driver of the stepper is handled from two contexts: the main loop raises its
pins and starts the timer, the tick pushes frequencies, stops the timer and takes
the driver down.  A monitor fixes the order that the calls have to keep, with the
direction that a start has asked for carried along.

Ticks land between the statements of a start: the state is published before the
start frequency is pushed, so a tick may push a frequency first.

Main results:

- Theorem `resting_tickIrq`: what a tick does to the phase of the monitor.
- Theorem `calls_in_order`: in every state of every run the calls kept their order,
  the pins are those of the phase, and while the timer runs nothing but frequencies
  is pushed.
-/

namespace MDCMotorControl
namespace Firmware

open Interruptible Motor Settings Modbus Panel FlashSector

/-! ## The monitor -/

/-- How far a motion has come, with the direction it was started with. -/
inductive Phase where
  | rest
  | called (direction : BitVec 8)
  | directed (direction : BitVec 8)
  | energised (direction : BitVec 8)
  | primed (direction : BitVec 8)
  | pulsing (direction : BitVec 8)
  | halted (direction : BitVec 8)
deriving DecidableEq

namespace Phase

/-- The calls that a phase accepts, and the phases they lead to.  A reset is
accepted at any time. -/
def next : Phase → DriveCall → Option Phase
  | phase, .systemReset => some phase
  | .rest, .enable false => some .rest
  | .rest, .setDirection _ => some .rest
  | .rest, .profile _ _ _ => some .rest
  | .rest, .appMotorStart direction => some (.called direction)
  | .called direction, .setDirection pushed =>
      if pushed = direction then some (.directed direction) else none
  | .directed direction, .enable true => some (.energised direction)
  | .energised direction, .setFrequency _ => some (.primed direction)
  | .primed direction, .setFrequency _ => some (.primed direction)
  | .primed direction, .startTimer => some (.pulsing direction)
  | .pulsing direction, .setFrequency _ => some (.pulsing direction)
  | .pulsing direction, .stopTimer => some (.halted direction)
  | .halted _, .enable false => some .rest
  | _, _ => none

/-- Whether the driver is enabled in a phase. -/
def enabled : Phase → Bool
  | .rest => false
  | .called _ => false
  | .directed _ => false
  | _ => true

/-- Whether the timer runs in a phase. -/
def timerRuns : Phase → Bool
  | .pulsing _ => true
  | _ => false

/-- The direction that has been set for a motion. -/
def direction : Phase → Option (BitVec 8)
  | .rest => none
  | .called _ => none
  | .directed direction => some direction
  | .energised direction => some direction
  | .primed direction => some direction
  | .pulsing direction => some direction
  | .halted direction => some direction

end Phase

/-- The calls of a drive, most recent first. -/
def driveCalls (d : Drive) : List DriveCall :=
  d.trace.map DriveEvent.call

/-- The calls of a drive lead to a phase, and the pins are those of the phase. -/
structure InPhase (phase : Phase) (d : Drive) : Prop where
  accepted : Monitor.after Phase.next .rest (driveCalls d) = some phase
  enabled : d.enPin = phase.enabled
  timer : d.timerRunning = phase.timerRuns
  direction : ∀ dir, phase.direction = some dir → d.dirPin = (dir != 0)

/-- The phase depends on the calls and the pins only. -/
theorem InPhase.of_eq {phase : Phase} {d d' : Drive} (h : InPhase phase d)
    (htrace : driveCalls d' = driveCalls d) (hen : d'.enPin = d.enPin)
    (htimer : d'.timerRunning = d.timerRunning) (hdir : d'.dirPin = d.dirPin) :
    InPhase phase d' where
  accepted := htrace ▸ h.accepted
  enabled := hen.trans h.enabled
  timer := htimer.trans h.timer
  direction := fun dir heq => hdir.trans (h.direction dir heq)

/-- A call that sets no pin moves on to a phase with the same pins. -/
theorem InPhase.of_call {phase phase' : Phase} {d d' : Drive} {call : DriveCall}
    (h : InPhase phase d) (hcall : driveCalls d' = call :: driveCalls d)
    (hnext : phase.next call = some phase') (hen : d'.enPin = phase'.enabled)
    (htimer : d'.timerRunning = phase'.timerRuns)
    (hdir : ∀ dir, phase'.direction = some dir → d'.dirPin = (dir != 0)) :
    InPhase phase' d' where
  accepted := by
    rw [hcall]
    exact Monitor.after_cons_of h.accepted hnext
  enabled := hen
  timer := htimer
  direction := hdir

section Calls

variable {d : Drive} {dir : BitVec 8}

@[simp] theorem driveCalls_log (context : Context) (call : DriveCall) (d : Drive) :
    driveCalls (d.log context call) = call :: driveCalls d := rfl

@[simp] theorem driveCalls_setFrequency (context : Context) (n : ℕ) (d : Drive) :
    driveCalls (halMotorSetFrequency context n d) = .setFrequency n :: driveCalls d := by
  rw [driveCalls, halMotorSetFrequency_trace]
  rfl

theorem halMotorSetFrequency_dirPin (context : Context) (n : ℕ) (d : Drive) :
    (halMotorSetFrequency context n d).dirPin = d.dirPin := by
  unfold halMotorSetFrequency
  split <;> rfl

/-- A frequency is accepted once the driver is enabled. -/
theorem InPhase.setFrequency {phase : Phase} (h : InPhase phase d) (context : Context) {n : ℕ}
    {phase' : Phase} (hnext : phase.next (.setFrequency n) = some phase')
    (hen : phase'.enabled = phase.enabled) (htimer : phase'.timerRuns = phase.timerRuns)
    (hdir : phase'.direction = phase.direction) :
    InPhase phase' (halMotorSetFrequency context n d) := by
  refine h.of_call (driveCalls_setFrequency context n d) hnext ?_ ?_ fun dir heq => ?_
  · rw [halMotorSetFrequency_enPin, h.enabled, hen]
  · rw [halMotorSetFrequency_timerRunning, h.timer, htimer]
  · rw [halMotorSetFrequency_dirPin]
    exact h.direction dir (hdir ▸ heq)

theorem InPhase.energised_setFrequency (h : InPhase (.energised dir) d) (context : Context)
    (n : ℕ) : InPhase (.primed dir) (halMotorSetFrequency context n d) :=
  h.setFrequency context rfl rfl rfl rfl

theorem InPhase.primed_setFrequency (h : InPhase (.primed dir) d) (context : Context) (n : ℕ) :
    InPhase (.primed dir) (halMotorSetFrequency context n d) :=
  h.setFrequency context rfl rfl rfl rfl

theorem InPhase.pulsing_setFrequency (h : InPhase (.pulsing dir) d) (context : Context) (n : ℕ) :
    InPhase (.pulsing dir) (halMotorSetFrequency context n d) :=
  h.setFrequency context rfl rfl rfl rfl

/-- The two calls at the bottom of a ramp. -/
theorem InPhase.shutDown (h : InPhase (.pulsing dir) d) :
    InPhase .rest (halMotorEnable .tick false (halMotorStopTimer .tick d)) := by
  have hstop : InPhase (.halted dir) (halMotorStopTimer .tick d) :=
    h.of_call rfl rfl h.enabled rfl h.direction
  exact hstop.of_call rfl rfl rfl rfl fun _ heq => nomatch heq

/-- The initialisation of a motor at rest. -/
theorem InPhase.halMotorInit (h : InPhase .rest d) : InPhase .rest (halMotorInit d) := by
  have hoff : InPhase .rest (halMotorEnable .main false d) :=
    h.of_call rfl rfl rfl h.timer fun _ heq => nomatch heq
  exact hoff.of_call rfl rfl rfl rfl fun _ heq => nomatch heq

end Calls

/-! ## The tick -/

/-- The calls kept their order. -/
def InOrder (d : Drive) : Prop :=
  ∃ phase, InPhase phase d

/-- A motor in its motion, with the driver enabled and the timer running, or not in
motion at all. -/
def Resting (d : Drive) : Prop :=
  d.currentState = .stopped ∧ InPhase .rest d ∨
    d.currentState ≠ .stopped ∧ ∃ dir, InPhase (.pulsing dir) d

theorem Resting.inOrder {d : Drive} (h : Resting d) : InOrder d := by
  rcases h with ⟨_, hrest⟩ | ⟨_, dir, hpulsing⟩
  · exact ⟨.rest, hrest⟩
  · exact ⟨.pulsing dir, hpulsing⟩

section

variable {fl : ℚ → ℚ} {dir : BitVec 8}

/-- A tick pushes at most a frequency on a motor that moves. -/
theorem moving_tick_cases {d : Drive} (hmoving : Moving d) :
    appMotorKinematicTick1ms fl d = d ∨
      ∃ n e, appMotorKinematicTick1ms fl d = halMotorSetFrequency .tick n e ∧
        driveCalls e = driveCalls d ∧ e.enPin = d.enPin ∧
        e.timerRunning = d.timerRunning ∧ e.dirPin = d.dirPin := by
  have hcase := appMotorKinematicTick1ms_cases fl d
  generalize appMotorKinematicTick1ms fl d = d' at hcase
  cases hcase with
  | idle => exact .inl rfl
  | up => exact .inr ⟨_, _, rfl, rfl, rfl, rfl, rfl⟩
  | reach => exact .inr ⟨_, _, rfl, rfl, rfl, rfl, rfl⟩
  | down hstate => simp [Moving, hstate] at hmoving
  | halt hstate => simp [Moving, hstate] at hmoving

/-- A tick that lands in a start leaves the driver enabled, its frequency perhaps
pushed. -/
theorem starting_tickIrq :
    Stable (tickIrq fl) fun d =>
      Moving d ∧ (InPhase (.energised dir) d ∨ InPhase (.primed dir) d) := by
  rintro _ d ⟨hmoving, hphase⟩
  refine ⟨moving_tickIrq () d hmoving, ?_⟩
  show InPhase _ (appMotorKinematicTick1ms fl d) ∨ InPhase _ (appMotorKinematicTick1ms fl d)
  rcases @moving_tick_cases fl d hmoving with heq | ⟨n, e, heq, hcalls, hen, htimer, hdir⟩
  · rwa [heq]
  · rw [heq]
    rcases hphase with hphase | hphase
    · exact .inr ((hphase.of_eq hcalls hen htimer hdir).energised_setFrequency .tick n)
    · exact .inr ((hphase.of_eq hcalls hen htimer hdir).primed_setFrequency .tick n)

/-- Once its frequency has been pushed, a starting motor only gets further ones. -/
theorem primed_tickIrq : Stable (tickIrq fl) fun d => Moving d ∧ InPhase (.primed dir) d := by
  rintro _ d ⟨hmoving, hphase⟩
  refine ⟨moving_tickIrq () d hmoving, ?_⟩
  show InPhase _ (appMotorKinematicTick1ms fl d)
  rcases @moving_tick_cases fl d hmoving with heq | ⟨n, e, heq, hcalls, hen, htimer, hdir⟩
  · rwa [heq]
  · rw [heq]
    exact (hphase.of_eq hcalls hen htimer hdir).primed_setFrequency .tick n

/-- What a tick does to the phase of the monitor: it pushes frequencies while the
motor moves, and takes the driver down at the bottom of the ramp. -/
theorem resting_tickIrq : Stable (tickIrq fl) Resting := by
  intro _ d h
  show Resting (appMotorKinematicTick1ms fl d)
  rcases h with ⟨hstopped, hrest⟩ | ⟨hstate, dir, hpulsing⟩
  · rw [appMotorKinematicTick1ms_of_stopped fl hstopped]
    exact .inl ⟨hstopped, hrest⟩
  · have hcase := appMotorKinematicTick1ms_cases fl d
    generalize appMotorKinematicTick1ms fl d = d' at hcase
    have hpush : ∀ n (e : Drive), driveCalls e = driveCalls d → e.enPin = d.enPin →
        e.timerRunning = d.timerRunning → e.dirPin = d.dirPin →
        InPhase (.pulsing dir) (halMotorSetFrequency .tick n e) :=
      fun n e hcalls hen htimer hdir =>
        (hpulsing.of_eq hcalls hen htimer hdir).pulsing_setFrequency .tick n
    cases hcase with
    | idle => exact .inr ⟨hstate, dir, hpulsing⟩
    | up => exact .inr ⟨by simpa using hstate, dir, hpush _ _ rfl rfl rfl rfl⟩
    | reach => exact .inr ⟨by simp, dir, hpush _ _ rfl rfl rfl rfl⟩
    | down => exact .inr ⟨by simpa using hstate, dir, hpush _ _ rfl rfl rfl rfl⟩
    | halt =>
        have hlowered : InPhase (.pulsing dir) { d with currentFreq := d.lowered fl } :=
          hpulsing.of_eq rfl rfl rfl rfl
        exact .inl ⟨rfl, hlowered.shutDown.of_eq rfl rfl rfl rfl⟩

/-! ## Start and stop -/

/-- A tick leaves a motor that has not been started yet alone. -/
theorem stopped_phase_tickIrq (phase : Phase) :
    Stable (tickIrq fl) fun d => d.currentState = .stopped ∧ InPhase phase d := by
  rintro _ d ⟨hstopped, hphase⟩
  rw [tickIrq, appMotorKinematicTick1ms_of_stopped fl hstopped]
  exact ⟨hstopped, hphase⟩

/-- The guarded statements of a start take the monitor from the call to the running
timer, wherever ticks land between them. -/
theorem startBody_inOrder (dir : BitVec 8) :
    Triple (tickIrq fl) InOrder (fun d => d.currentState = .stopped ∧ InPhase (.called dir) d)
      (startBody dir) fun d => Resting d ∧ Moving d := by
  have himp : ∀ phase d, d.currentState = .stopped ∧ InPhase phase d → InOrder d :=
    fun phase _ h => ⟨phase, h.2⟩
  refine .act (stopped_phase_tickIrq _) (himp _)
    (R := fun d => d.currentState = .stopped ∧ InPhase (.directed dir) d) (fun d h => ?_) ?_
  · refine ⟨h.1, h.2.of_call rfl (if_pos rfl) h.2.enabled h.2.timer fun dir' heq => ?_⟩
    obtain rfl : dir = dir' := Option.some.inj heq
    rfl
  refine .act (stopped_phase_tickIrq _) (himp _)
    (R := fun d => d.currentState = .stopped ∧ InPhase (.energised dir) d)
    (fun d h => ⟨h.1, h.2.of_call rfl rfl rfl h.2.timer h.2.direction⟩) ?_
  refine .act (stopped_phase_tickIrq _) (himp _)
    (R := fun d => d.currentState = .stopped ∧ InPhase (.energised dir) d)
    (fun d h => ⟨h.1, h.2.of_eq rfl rfl rfl rfl⟩) ?_
  -- from here on ticks push frequencies of their own
  refine .act (stopped_phase_tickIrq _) (himp _)
    (R := fun d => Moving d ∧ (InPhase (.energised dir) d ∨ InPhase (.primed dir) d))
    (fun d h => ⟨.inl rfl, .inl (h.2.of_eq rfl rfl rfl rfl)⟩) ?_
  refine .act starting_tickIrq (fun d h => ?_) (R := fun d => Moving d ∧ InPhase (.primed dir) d)
    (fun d h => ⟨by simpa [Moving] using h.1, ?_⟩) ?_
  · rcases h.2 with hphase | hphase
    · exact ⟨_, hphase⟩
    · exact ⟨_, hphase⟩
  · rcases h.2 with hphase | hphase
    · exact hphase.energised_setFrequency .main _
    · exact hphase.primed_setFrequency .main _
  refine .stmt primed_tickIrq (fun d h => ⟨_, h.2⟩) (resting_tickIrq.and moving_tickIrq)
    (fun d h => h.1.inOrder) fun d h => ⟨.inr ⟨h.1.ne_stopped, dir, ?_⟩, h.1⟩
  exact h.2.of_call rfl rfl h.2.enabled rfl h.2.direction

/-- A start of a motor at rest. -/
theorem appMotorStart_inOrder (dir : BitVec 8) :
    Triple (tickIrq fl) InOrder (fun d => Resting d ∧ d.currentState = .stopped)
      (appMotorStart dir) fun d => Resting d ∧ Moving d := by
  have hcall : Triple (tickIrq fl) InOrder (fun d => Resting d ∧ d.currentState = .stopped)
      (.stmt fun d => { d.log .main (.appMotorStart dir) with startInProgress := true })
      fun d => d.currentState = .stopped ∧ InPhase (.called dir) d := by
    refine .stmt (resting_tickIrq.and stopped_tickIrq) (fun d h => h.1.inOrder)
      (stopped_phase_tickIrq _) (fun d h => ⟨_, h.2⟩) fun d h => ⟨h.2, ?_⟩
    rcases h.1 with ⟨_, hrest⟩ | ⟨hnot, _⟩
    · exact hrest.of_call rfl rfl hrest.enabled hrest.timer fun _ heq => nomatch heq
    · exact absurd h.2 hnot
  refine hcall.seq (Triple.seq (R := fun d => Resting d ∧ Moving d)
    (.branch (stopped_phase_tickIrq _) (fun d h => ⟨_, h.2⟩)
      (fun d h _ => startBody_inOrder dir d h)
      fun d h hcond => absurd h.1 (of_decide_eq_false hcond)) ?_)
  rw [Code.block_singleton]
  refine .of_preserves (resting_tickIrq.and moving_tickIrq) (fun d h => h.1.inOrder)
    (.stmt fun d h => ⟨?_, h.2⟩)
  rcases h.1 with ⟨hstopped, _⟩ | ⟨hstate, dir', hpulsing⟩
  · exact absurd hstopped h.2.ne_stopped
  · exact .inr ⟨hstate, dir', hpulsing.of_eq rfl rfl rfl rfl⟩

/-- A statement that makes no call and keeps the state. -/
theorem Resting.of_eq {d d' : Drive} (h : Resting d) (hstate : d'.currentState = d.currentState)
    (htrace : driveCalls d' = driveCalls d) (hen : d'.enPin = d.enPin)
    (htimer : d'.timerRunning = d.timerRunning) (hdir : d'.dirPin = d.dirPin) : Resting d' := by
  rcases h with ⟨hstopped, hrest⟩ | ⟨hne, dir, hpulsing⟩
  · exact .inl ⟨hstate.trans hstopped, hrest.of_eq htrace hen htimer hdir⟩
  · exact .inr ⟨hstate ▸ hne, dir, hpulsing.of_eq htrace hen htimer hdir⟩

/-- A profile is only calculated for a motor at rest. -/
theorem appMotorCalculateProfile_inOrder (rpm accel : ℚ) (microsteps : BitVec 16) :
    Triple (tickIrq fl) InOrder (fun d => Resting d ∧ d.currentState = .stopped)
      (appMotorCalculateProfile fl rpm accel microsteps)
      fun d => Resting d ∧ d.currentState = .stopped := by
  have hstmt : ∀ f : ShaftProfile → ShaftProfile, ∀ d : Drive,
      (Resting d ∧ d.currentState = .stopped) → Resting (d.onShaft f) ∧
        (d.onShaft f).currentState = .stopped :=
    fun f d h => ⟨h.1.of_eq rfl rfl rfl rfl rfl, h.2⟩
  refine .of_preserves (resting_tickIrq.and stopped_tickIrq) (fun d h => h.1.inOrder)
    ⟨hstmt _, hstmt _, hstmt _, hstmt _, hstmt _, fun d h => ⟨?_, h.2⟩, trivial⟩
  rcases h.1 with ⟨hstopped, hrest⟩ | ⟨hnot, _⟩
  · exact .inl ⟨hstopped, hrest.of_call rfl rfl hrest.enabled hrest.timer
      fun _ heq => nomatch heq⟩
  · exact absurd h.2 hnot

/-- A stop changes the state and makes no call. -/
theorem appMotorStop_inOrder :
    Triple (tickIrq fl) InOrder (fun d => Resting d ∧ Moving d) appMotorStop
      fun d => Resting d ∧ Ending d := by
  refine appMotorStop_of_moving (resting_tickIrq.and moving_tickIrq) (fun d h => h.1.inOrder)
    (fun d h => h.2) (resting_tickIrq.and ending_tickIrq) (fun d h => h.1.inOrder)
    fun d h => ⟨?_, .inl rfl⟩
  rcases h.1 with ⟨hstopped, _⟩ | ⟨_, dir, hpulsing⟩
  · exact absurd hstopped h.2.ne_stopped
  · exact .inr ⟨nofun, dir, hpulsing.of_eq rfl rfl rfl rfl⟩

/-- The order of the calls obeys the rules of a pass. -/
theorem order_rules (fl : ℚ → ℚ) : DriveRules fl InOrder Resting Resting where
  stable := resting_tickIrq
  stable_prepared := resting_tickIrq
  imp := fun _ h => h.inOrder
  imp_prepared := fun _ h => h.inOrder
  init := fun d h hstopped => by
    rcases h with ⟨_, hrest⟩ | ⟨hnot, _⟩
    · exact .inl ⟨hstopped, hrest.halMotorInit⟩
    · exact absurd hstopped hnot
  reset := fun d h => by
    rcases h with ⟨hstopped, hrest⟩ | ⟨hstate, dir, hpulsing⟩
    · exact .inl ⟨hstopped, hrest.of_call rfl rfl hrest.enabled hrest.timer hrest.direction⟩
    · exact .inr ⟨hstate, dir,
        hpulsing.of_call rfl rfl hpulsing.enabled hpulsing.timer hpulsing.direction⟩
  prepare := appMotorCalculateProfile_inOrder
  start := appMotorStart_inOrder
  stop := appMotorStop_inOrder

end

/-! ## Main result -/

/-- Up to the call that stops it, a running timer sees frequencies and resets only. -/
theorem calls_while_pulsing {dir : BitVec 8} {phase : Phase} {stretch : List DriveCall}
    (hstop : .stopTimer ∉ stretch)
    (h : Monitor.after Phase.next (.pulsing dir) stretch = some phase) :
    ∀ call ∈ stretch, (∃ n, call = .setFrequency n) ∨ call = .systemReset := by
  have hkeep : ∀ call ∈ stretch, ∀ before phase', before = Phase.pulsing dir →
      Phase.next before call = some phase' → phase' = Phase.pulsing dir := by
    rintro call hcall before phase' rfl hnext
    cases call <;> simp_all [Phase.next]
  intro call hcall
  obtain ⟨before, phase', rfl, hnext⟩ := (Monitor.after_between hkeep rfl h).2 call hcall
  cases call <;> simp_all [Phase.next]

/-- In every state of every run, whatever the ticks interrupted: the calls to the
driver kept the order of the monitor, the pins of the driver are those of the phase
that the calls led to, and between the start of the timer and its stop nothing but
frequencies was pushed, so the direction of a moving motor was never touched. -/
theorem calls_in_order (fl : ℚ → ℚ) (crc : List (BitVec 32) → BitVec 32) (start : PowerUp)
    (schedule : List (Event Bool PassInput)) :
    let d := (runFrom fl crc start schedule).state.drive
    (∃ phase, Monitor.after Phase.next .rest (driveCalls d) = some phase ∧
      d.enPin = phase.enabled ∧ d.timerRunning = phase.timerRuns ∧
      ∀ dir, phase.direction = some dir → d.dirPin = (dir != 0)) ∧
    ∀ later earlier, driveCalls d = later ++ .startTimer :: earlier → .stopTimer ∉ later →
      ∀ call ∈ later, (∃ n, call = .setFrequency n) ∨ call = .systemReset := by
  intro d
  have hinit : Resting .powerUp :=
    .inl ⟨rfl, rfl, rfl, rfl, fun _ heq => nomatch heq⟩
  obtain ⟨phase, hphase⟩ : InOrder d :=
    (runFrom_follows (order_rules fl) hinit start schedule).1
  refine ⟨⟨phase, hphase.accepted, hphase.enabled, hphase.timer, hphase.direction⟩,
    fun later earlier heq hstop => ?_⟩
  have haccepted := hphase.accepted
  rw [heq] at haccepted
  obtain ⟨before, phase', _, hnext, hlater⟩ := Monitor.mem_accepted haccepted
  obtain ⟨dir, rfl⟩ : ∃ dir, phase' = .pulsing dir := by
    cases before with
    | primed dir => exact ⟨dir, (Option.some.inj hnext).symm⟩
    | _ => simp [Phase.next] at hnext
  exact calls_while_pulsing hstop hlater

end Firmware
end MDCMotorControl
