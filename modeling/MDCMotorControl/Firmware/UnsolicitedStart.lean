import MDCMotorControl.Library.ProgramPoints
import MDCMotorControl.Firmware.Arbitration
import MDCMotorControl.Firmware.MotionView

/-!
# Starts that nobody asked for

Two modules remember a previous switch level: the debouncer, which takes its
first level from the pin, and the main loop, which starts from off.  With the
switch on at the boot the first edge test finds a change that never happened,
unless the debounced level has moved by then.

Main results:

- Theorem `solicited_run`: after a boot with the switch off, the motor is
  started only after a start command or a change of the switch.
- Theorem `no_unsolicited_start`: so it is in every run whose edge tests compare
  with a level that the switch has had.
- Theorem `started_by_switch_position`: a boot with the switch on starts the
  motor.
-/

namespace MDCMotorControl
namespace Firmware

open Interruptible Motor Settings Modbus Panel FlashSector

/-! ## What has been asked for -/

/-- The level read by `App_Switch_Init`. -/
def initLevel : List Observation → Option Bool :=
  List.findSome? fun o =>
    match o with
    | .switchInit level => some level
    | .switchChanged _ => none
    | .received _ => none

/-- Whether the debounced level has differed from the one read at boot. -/
def switchMoved : List Observation → Bool
  | [] => false
  | .switchChanged level :: earlier =>
      initLevel earlier == some (!level) || switchMoved earlier
  | .switchInit _ :: earlier => switchMoved earlier
  | .received _ :: earlier => switchMoved earlier

/-- Whether a start command or a change of the switch has been observed.  A start
command is what the receive handler decodes as a write of 1 to the control register. -/
def solicited (history : List Observation) : Bool :=
  commanded .motorCtrl 1 history || switchMoved history

/-- Whether a call is one of `App_Motor_Start`. -/
def isStart : DriveCall → Bool
  | .appMotorStart _ => true
  | _ => false

/-- Whether `App_Motor_Start` has been called. -/
def started (d : Drive) : Bool :=
  d.trace.any fun e => isStart e.call

theorem solicited_cons {o : Observation} {history : List Observation}
    (h : solicited history = true) : solicited (o :: history) = true := by
  rcases Bool.or_eq_true_iff.mp h with hcommanded | hmoved
  · have hany : commanded .motorCtrl 1 (o :: history) = true := by
      rw [commanded, List.any_cons]
      exact Bool.or_eq_true_iff.mpr (.inr hcommanded)
    exact Bool.or_eq_true_iff.mpr (.inl hany)
  · refine Bool.or_eq_true_iff.mpr (.inr ?_)
    cases o <;> simp [switchMoved, hmoved]

/-- A start command that has just been received is on record. -/
theorem solicited_of_command {p : Pbuf} {history : List Observation}
    (h : p.command = some (.motorCtrl, 1)) : solicited (.received p :: history) = true := by
  simp [solicited, commanded, Observation.carries, h]

/-! ## The invariant -/

/-- Everything that leads to a start sooner or later, and the start itself. -/
def triggered (v : MotionView) : Bool :=
  appSwitchGetState v.switch || v.currentSwitchState || v.sysMotorRunRequest ||
    v.pendingMotorStart || started v.drive

/-- After a boot with the switch off, nothing leads to a start that has not been
asked for. -/
def StartInv (v : MotionView) : Prop :=
  initLevel v.history = some false → triggered v = true → solicited v.history = true

/-- After a boot with the switch off, a start has been asked for. -/
def AskedInv (v : MotionView) : Prop :=
  initLevel v.history = some false → solicited v.history = true

theorem AskedInv.startInv {v : MotionView} (h : AskedInv v) : StartInv v :=
  fun hinit _ => h hinit

/-- A statement that adds no trigger and no observation keeps the invariant. -/
theorem StartInv.of_imp {v v' : MotionView} (h : StartInv v)
    (hhistory : v'.history = v.history) (himp : triggered v' = true → triggered v = true) :
    StartInv v' := by
  intro hinit htriggered
  rw [hhistory] at hinit ⊢
  exact h hinit (himp htriggered)

/-- The tick makes no call of `App_Motor_Start`. -/
theorem started_tick (fl : ℚ → ℚ) (d : Drive) :
    started (appMotorKinematicTick1ms fl d) = started d := by
  have hcase := appMotorKinematicTick1ms_cases fl d
  generalize appMotorKinematicTick1ms fl d = d' at hcase
  cases hcase <;> simp [started, isStart, halMotorEnable, halMotorStopTimer, Drive.log]

section

variable {fl : ℚ → ℚ} {crc : List (BitVec 32) → BitVec 32}

theorem startInv_stable : Stable (sysTickHandler fl) fun w => StartInv w.motion := by
  intro pin w h hinit htriggered
  simp only [World.motion] at h hinit htriggered ⊢
  rcases sysTickHandler_history fl pin w with ⟨hstate, hhistory⟩ | ⟨hstate, hhistory⟩
  · rw [hhistory] at hinit ⊢
    apply h hinit
    simpa only [triggered, hstate, sysTickHandler_ctl, sysTickHandler_drive, started_tick]
      using htriggered
  · rw [hhistory] at hinit ⊢
    have hbefore : initLevel w.history = some false := hinit
    cases hlevel : appSwitchGetState w.switch with
    | false => simp [solicited, switchMoved, hbefore]
    | true => exact solicited_cons (h hbefore (by simp [triggered, hlevel]))

theorem askedInv_stable : Stable (sysTickHandler fl) fun w => AskedInv w.motion := by
  intro pin w h hinit
  simp only [World.motion] at h hinit ⊢
  rcases sysTickHandler_history fl pin w with ⟨_, hhistory⟩ | ⟨_, hhistory⟩
  · rw [hhistory] at hinit ⊢
    exact h hinit
  · rw [hhistory] at hinit ⊢
    exact solicited_cons (h hinit)

/-! ## The invariant through a pass -/

/-- A received segment sets the start flag only if it carries a start command. -/
theorem receive_pendingMotorStart {p : Pbuf} (hp : p.command ≠ some (.motorCtrl, 1))
    (inputs : ℕ → ReadInputs) (w : World) :
    (receive fl p inputs w).ctl.mb.pendingMotorStart = w.ctl.mb.pendingMotorStart := by
  refine (congrArg Arbiter.pendingMotorStart (arbiter_receive w p inputs)).trans ?_
  cases hc : p.command with
  | none => rfl
  | some c =>
      have hne : startAsked .motorCtrl c = false := by
        rw [startAsked, Bool.and_eq_false_iff, decide_eq_false_iff_not, decide_eq_false_iff_not]
        by_contra hboth
        rw [not_or, not_not, not_not] at hboth
        exact hp (hc.trans (congrArg some (Prod.ext hboth.1 hboth.2)))
      simp [Arbiter.receive, hne, World.arbiter]

theorem receive_startInv (p : Pbuf) (inputs : ℕ → ReadInputs) (w : World)
    (h : StartInv w.motion) : StartInv (receive fl p inputs w).motion := by
  intro hinit htriggered
  have hbefore : initLevel w.history = some false := hinit
  by_cases hcmd : p.command = some (.motorCtrl, 1)
  · exact solicited_of_command hcmd
  · refine solicited_cons (h hbefore ?_)
    simp only [triggered, World.motion, receive_pendingMotorStart hcmd inputs w] at htriggered ⊢
    exact htriggered

theorem sampleInputs_startInv : sampleInputs.Preserves fun w => StartInv w.motion := by
  refine ⟨fun w hw => hw.of_imp rfl ?_, fun w hw => hw.of_imp rfl id, trivial⟩
  simp only [triggered, World.motion, World.onCtl, Bool.or_eq_true]
  tauto

/-- The switch level that becomes the request was a trigger before. -/
theorem switchEdge_startInv : switchEdge.Preserves fun w => StartInv w.motion := by
  refine .whenever ⟨fun w hw => hw.of_imp rfl id, fun w hw => hw.of_imp rfl ?_, trivial⟩
  simp only [triggered, World.motion, World.onCtl, Bool.or_eq_true]
  tauto

theorem motorStopCommand_startInv : motorStopCommand.Preserves fun w => StartInv w.motion := by
  refine .whenever ⟨fun w hw => hw.of_imp rfl id, fun w hw => hw.of_imp rfl ?_, trivial⟩
  simp only [triggered, World.motion, World.onCtl, Bool.or_eq_true]
  tauto

theorem rebootCommand_startInv : rebootCommand.Preserves fun w => StartInv w.motion :=
  .whenever ⟨fun _ hw => hw.of_imp rfl id, fun _ hw => hw, fun _ hw => hw.of_imp rfl id,
    trivial⟩

/-- Code run because of a trigger: the start has been asked for before, and code
that records nothing cannot make that undone. -/
theorem triggered_triple {c : Code World} (hc : c.Keeps World.history) {w : World}
    (h : StartInv w.motion) (htriggered : triggered w.motion = true) :
    wp (sysTickHandler fl) (fun w => StartInv w.motion) (fun w => StartInv w.motion) c w := by
  have hasked : AskedInv w.motion := fun hinit => h hinit htriggered
  have hcode : Triple (sysTickHandler fl) (fun w => StartInv w.motion)
      (fun w => AskedInv w.motion) c fun w => AskedInv w.motion :=
    .of_preserves askedInv_stable (fun _ => AskedInv.startInv)
      (hc.preserves fun history => initLevel history = some false → solicited history = true)
  exact wp_mono (fun _ => id) (fun _ => AskedInv.startInv) (hcode w hasked)

theorem motorStartCommand_startInv :
    Triple (sysTickHandler fl) (fun w => StartInv w.motion) (fun w => StartInv w.motion)
      motorStartCommand fun w => StartInv w.motion := by
  refine .whenever startInv_stable (fun _ => id) startInv_stable (fun _ => id)
    (fun w hw hpending => ?_) (fun w hw _ => hw)
  apply triggered_triple _ hw
  · simp [triggered, World.motion, hpending]
  · exact .block_cons (.stmt fun _ => rfl) <| .block_cons (.stmt fun _ => rfl) .block_nil

theorem startMotor_keeps_history : (startMotor fl).Keeps World.history :=
  .block_cons (fun a _ => onDrive_keeps (fun _ _ => rfl) _ a) <|
    .block_cons (fun a _ => onDrive_keeps (fun _ _ => rfl) _ a) .block_nil

/-- Stopping the motor calls nothing. -/
theorem appMotorStop_keeps_trace : appMotorStop.Keeps Drive.trace :=
  .branch (.stmt fun _ => rfl) (.whenever (.stmt fun _ => rfl))

theorem motorStateMachine_startInv :
    Triple (sysTickHandler fl) (fun w => StartInv w.motion) (fun w => StartInv w.motion)
      (motorStateMachine fl) fun w => StartInv w.motion := by
  refine motorStateMachine_triple fl startInv_stable startInv_stable (fun _ => id)
    (fun _ => id) (fun w hw _ hrequest => ?_) (fun w hw _ _ => ?_) fun _ hv _ => hv
  · exact triggered_triple startMotor_keeps_history hw
      (by simp [triggered, World.motion, hrequest])
  · have hkeep : (onDrive appMotorStop).Keeps fun w => (triggered w.motion, w.history) := by
      refine onDrive_keeps_of appMotorStop_keeps_trace fun d w htrace => ?_
      simp only [triggered, started, World.motion, World.setDrive, htrace]
    exact Triple.of_preserves startInv_stable (fun _ => id)
      (hkeep.preserves fun v => initLevel v.2 = some false → v.1 = true → solicited v.2 = true)
      w hw

theorem pass_startInv (input : PassInput) :
    Triple (sysTickHandler fl) (fun w => StartInv w.motion) (fun w => StartInv w.motion)
      (pass fl crc input) fun w => StartInv w.motion := by
  have hkeep : ∀ c : Code World, c.Preserves (fun w => StartInv w.motion) →
      Triple (sysTickHandler fl) (fun w => StartInv w.motion) (fun w => StartInv w.motion) c
        fun w => StartInv w.motion :=
    fun c hc => .of_preserves startInv_stable (fun _ => id) hc
  refine pass_triple fl crc input startInv_stable startInv_stable (fun _ => id)
    (fun _ => id) receive_startInv (hkeep _ sampleInputs_startInv) ?_
    motorStateMachine_startInv
  simp only [List.mem_cons, List.not_mem_nil, or_false, forall_eq_or_imp, forall_eq]
  exact ⟨hkeep _ switchEdge_startInv, motorStartCommand_startInv,
    hkeep _ motorStopCommand_startInv, hkeep _ rebootCommand_startInv⟩

/-! ## The boot -/

/-- Until the switch is read, nothing has been asked for or done. -/
def BootInv (v : MotionView) : Prop :=
  initLevel v.history = none ∧
    (v.currentSwitchState || v.sysMotorRunRequest || v.pendingMotorStart ||
      started v.drive) = false

theorem BootInv.startInv {v : MotionView} (h : BootInv v) : StartInv v := by
  intro hinit
  rw [h.1] at hinit
  cases hinit

theorem bootInv_stable : Stable (sysTickHandler fl) fun w => BootInv w.motion := by
  rintro pin w ⟨hinit, hquiet⟩
  refine ⟨?_, by simpa only [World.motion, sysTickHandler_ctl, sysTickHandler_drive, started_tick]
    using hquiet⟩
  simp only [World.motion] at hinit ⊢
  rcases sysTickHandler_history fl pin w with ⟨_, hhistory⟩ | ⟨_, hhistory⟩
  · rwa [hhistory]
  · rw [hhistory]
    exact hinit

/-- The boot reads the switch and triggers nothing else. -/
theorem boot_startInv (ops : Outcomes 12) :
    Triple (sysTickHandler fl) (fun w => StartInv w.motion) (fun w => BootInv w.motion)
      (boot crc ops) fun w => StartInv w.motion := by
  have hboot : ∀ w, BootInv (World.motion w) → StartInv w.motion := fun _ => BootInv.startInv
  refine (Triple.of_preserves bootInv_stable hboot
    ((settingsInit_keeps_motion ops).preserves BootInv)).seq ?_
  refine .act (R := fun w => BootInv w.motion) bootInv_stable hboot
    (fun w hw => ⟨hw.1, ?_⟩) ?_
  · simpa [started, isStart, World.motion, World.setDrive, halMotorInit, halMotorSetDirection,
      halMotorEnable, Drive.log] using hw.2
  refine .act (R := fun w => BootInv w.motion) bootInv_stable hboot (fun w hw => hw) ?_
  refine .act (R := fun w => StartInv w.motion) bootInv_stable hboot
    (fun w hw hinit htriggered => ?_) ?_
  · have hlevel : halSwitchGetRawState w.switchPin = false := by
      simpa [initLevel, World.motion, World.observe] using hinit
    have hquiet := hw.2
    simp only [World.motion, Bool.or_eq_false_iff] at hquiet
    obtain ⟨⟨⟨hcurrent, hrequest⟩, hpending⟩, hstarted⟩ := hquiet
    simp [triggered, World.motion, World.observe, appSwitchGetState, appSwitchInit, hlevel,
      hcurrent, hrequest, hpending, hstarted] at htriggered
  · exact .of_preserves startInv_stable (fun _ => id)
      ⟨fun _ hw => hw, fun _ hw => hw, fun _ hw => hw, fun _ hw => hw, trivial⟩

/-! ## The edge test of the main loop -/

/-- What is left of a pass from the edge test of the switch on. -/
def fromEdgeTest (fl : ℚ → ℚ) : Code World :=
  .block [commands, motorStateMachine fl]

/-- Where the sampled level differs from the one that the main loop remembers, the debounced
level is not still the one read at boot. -/
def EdgeGenuine (w : World) : Prop :=
  w.ctl.currentSwitchState = w.ctl.lastSwitchState ∨ initLevel w.history = some false ∨
    switchMoved w.history = true

instance (w : World) : Decidable (EdgeGenuine w) :=
  inferInstanceAs (Decidable (_ ∨ _ ∨ _))

/-- So it is at every edge test of a schedule; from the first one on this cannot change. -/
def EdgesGenuine (fl : ℚ → ℚ) (crc : List (BitVec 32) → BitVec 32) (start : PowerUp)
    (schedule : List (Event Bool PassInput)) : Prop :=
  ∀ before after, schedule = before ++ .main :: after →
    (runFrom fl crc start before).code = fromEdgeTest fl →
      EdgeGenuine (runFrom fl crc start before).state

/-- The switch was read as off, or a level is the one read, or the debounced level has
moved. -/
def LevelKnown (history : List Observation) (level : Bool) : Prop :=
  initLevel history = some false ∨ initLevel history = some level ∨ switchMoved history = true

/-- No start yet, and the main loop remembers the switch as off. -/
def NotStarted (v : MotionView) : Prop :=
  started v.drive = false ∧ v.lastSwitchState = false

/-- Up to the first sampling of the switch. -/
def BeforeSample (v : MotionView) : Prop :=
  NotStarted v ∧ LevelKnown v.history (appSwitchGetState v.switch)

/-- From the sampling to the edge test. -/
def SampledKnown (v : MotionView) : Prop :=
  NotStarted v ∧ LevelKnown v.history v.currentSwitchState

/-- The switch was read as off, or a start has been asked for. -/
def Accounted (history : List Observation) : Prop :=
  initLevel history = some false ∨ solicited history = true

theorem Accounted.received {history : List Observation} (h : Accounted history) (p : Pbuf) :
    Accounted (.received p :: history) :=
  h.imp id solicited_cons

theorem LevelKnown.received {history : List Observation} {level : Bool}
    (h : LevelKnown history level) (p : Pbuf) : LevelKnown (.received p :: history) level :=
  h

/-- A level that flips was the one read at boot, or has moved before. -/
theorem LevelKnown.flip {history : List Observation} {level : Bool}
    (h : LevelKnown history level) (kept : Bool) :
    LevelKnown (.switchChanged (!level) :: history) kept := by
  rcases h with hoff | hlevel | hmoved
  · exact .inl hoff
  · have hread : initLevel history = some (!!level) := by rw [hlevel, Bool.not_not]
    exact .inr (.inr (by simp [switchMoved, hread]))
  · exact .inr (.inr (by simp [switchMoved, hmoved]))

theorem LevelKnown.changed {history : List Observation} {level : Bool}
    (h : LevelKnown history level) (now : Bool) :
    LevelKnown (.switchChanged now :: history) level :=
  h.imp id (.imp id fun hmoved => by simp [switchMoved, hmoved])

theorem notStarted_tick {pin : Bool} {w : World} (h : NotStarted w.motion) :
    NotStarted (sysTickHandler fl pin w).motion := by
  simpa only [NotStarted, World.motion, sysTickHandler_ctl, sysTickHandler_drive, started_tick]
    using h

theorem beforeSample_stable : Stable (sysTickHandler fl) fun w => BeforeSample w.motion := by
  rintro pin w ⟨hquiet, hlevel⟩
  refine ⟨notStarted_tick hquiet, ?_⟩
  simp only [World.motion] at hlevel ⊢
  rcases sysTickHandler_history fl pin w with ⟨hstate, hhistory⟩ | ⟨-, hhistory⟩
  · rwa [hstate, hhistory]
  · rw [hhistory]
    exact hlevel.flip _

theorem sampledKnown_stable : Stable (sysTickHandler fl) fun w => SampledKnown w.motion := by
  rintro pin w ⟨hquiet, hlevel⟩
  refine ⟨notStarted_tick hquiet, ?_⟩
  simp only [World.motion, sysTickHandler_ctl] at hlevel ⊢
  rcases sysTickHandler_history fl pin w with ⟨-, hhistory⟩ | ⟨-, hhistory⟩
  · rwa [hhistory]
  · rw [hhistory]
    exact hlevel.changed _

theorem accounted_stable : Stable (sysTickHandler fl) fun w => Accounted w.history := by
  intro pin w h
  rcases sysTickHandler_history fl pin w with ⟨-, hhistory⟩ | ⟨-, hhistory⟩
  · rwa [hhistory]
  · rw [hhistory]
    exact h.imp id solicited_cons

/-- The statements of a pass up to the edge test. -/
def toEdgeTest (fl : ℚ → ℚ) (crc : List (BitVec 32) → BitVec 32) (input : PassInput) :
    Code World :=
  .block [mxLwipProcess fl input.deliveries, sampleInputs, saveCommand crc input.save]

/-- The edge test splits a pass. -/
theorem pass_eq (input : PassInput) :
    pass fl crc input = (toEdgeTest fl crc input).seq (fromEdgeTest fl) :=
  Code.block_append [mxLwipProcess fl input.deliveries, sampleInputs, saveCommand crc input.save]
    [commands, motorStateMachine fl]

/-- Up to it a pass starts nothing, and samples a level that is known. -/
theorem toEdgeTest_sampledKnown (input : PassInput) :
    Triple (sysTickHandler fl) (fun w => started w.drive = false)
      (fun w => BeforeSample w.motion) (toEdgeTest fl crc input)
      fun w => SampledKnown w.motion := by
  have hbefore : ∀ w, BeforeSample (World.motion w) → started w.drive = false :=
    fun _ h => h.1.1
  have hafter : ∀ w, SampledKnown (World.motion w) → started w.drive = false := fun _ h => h.1.1
  have hlwip : (mxLwipProcess fl input.deliveries).Preserves fun w => BeforeSample w.motion :=
    mxLwipProcess_preserves fl (fun p _ _ h => ⟨h.1, h.2.received p⟩) input.deliveries
  have hsample : Triple (sysTickHandler fl) (fun w => started w.drive = false)
      (fun w => BeforeSample w.motion) sampleInputs fun w => SampledKnown w.motion := by
    refine (Triple.stmt beforeSample_stable hbefore sampledKnown_stable hafter ?_).seq ?_
    · exact fun w hw => hw
    · exact .of_preserves sampledKnown_stable hafter ⟨fun w hw => hw, trivial⟩
  refine (Triple.of_preserves beforeSample_stable hbefore hlwip).seq <| hsample.seq ?_
  rw [Code.block_singleton]
  exact .of_preserves sampledKnown_stable hafter
    ((saveCommand_keeps_motion input.save).preserves SampledKnown)

/-- From the edge test on a pass records nothing. -/
theorem fromEdgeTest_keeps_history : (fromEdgeTest fl).Keeps World.history := by
  have hmotion : ∀ c : Code World, c.Keeps World.motion → c.Keeps World.history :=
    fun c hc history => hc.preserves fun v => v.history = history
  have hperipheral := peripheralCommands_keep_motion
  simp only [List.mem_cons, List.not_mem_nil, or_false, forall_eq_or_imp, forall_eq]
    at hperipheral
  obtain ⟨hstreamStart, hstreamStop, hbaud, hdir⟩ := hperipheral
  have hreboot : rebootCommand.Keeps World.history :=
    .whenever fun _ => ⟨fun _ => id, fun _ => id, fun _ => id, trivial⟩
  have hcommands : commands.Keeps World.history :=
    .block_cons (.whenever_pair (fun _ => rfl) fun _ => rfl) <|
      .block_cons (.whenever_pair (fun _ => rfl) fun _ => rfl) <|
      .block_cons (.whenever_pair (fun _ => rfl) fun _ => rfl) <|
      .block_cons (hmotion _ hstreamStart) <| .block_cons (hmotion _ hstreamStop) <|
      .block_cons (hmotion _ hbaud) <| .block_cons (hmotion _ hdir) <|
      .block_cons hreboot .block_nil
  exact .pair hcommands (motorStateMachine_keeps fl (fun _ _ => rfl) fun _ _ => rfl)

theorem fromEdgeTest_accounted :
    Triple (sysTickHandler fl) (fun w => Accounted w.history) (fun w => Accounted w.history)
      (fromEdgeTest fl) fun w => Accounted w.history :=
  .of_preserves accounted_stable (fun _ => id) (fromEdgeTest_keeps_history.preserves Accounted)

theorem pass_accounted (input : PassInput) :
    Triple (sysTickHandler fl) (fun w => Accounted w.history) (fun w => Accounted w.history)
      (pass fl crc input) fun w => Accounted w.history := by
  have hlwip : (mxLwipProcess fl input.deliveries).Preserves fun w => Accounted w.history :=
    mxLwipProcess_preserves fl (fun p _ _ h => h.received p) input.deliveries
  have hsave : (saveCommand crc input.save).Keeps World.history :=
    saveCommand_keeps crc (fun _ => rfl) (fun _ => rfl) (fun _ _ => rfl) input.save
  refine .of_preserves accounted_stable (fun _ => id) ?_
  exact .block_cons hlwip <| .block_cons ⟨fun _ => id, fun _ => id, trivial⟩ <|
    .block_cons (hsave.preserves Accounted) (fromEdgeTest_keeps_history.preserves Accounted)

/-- Nothing is observed before the boot reads the switch. -/
def Unread (v : MotionView) : Prop :=
  NotStarted v ∧ initLevel v.history = none

theorem unread_stable : Stable (sysTickHandler fl) fun w => Unread w.motion := by
  rintro pin w ⟨hquiet, hnone⟩
  refine ⟨notStarted_tick hquiet, ?_⟩
  simp only [World.motion] at hnone ⊢
  rcases sysTickHandler_history fl pin w with ⟨-, hhistory⟩ | ⟨-, hhistory⟩
  · rwa [hhistory]
  · rw [hhistory]
    exact hnone

/-- The boot starts nothing, and reads the switch. -/
theorem boot_beforeSample (ops : Outcomes 12) :
    Triple (sysTickHandler fl) (fun w => started w.drive = false) (fun w => Unread w.motion)
      (boot crc ops) fun w => BeforeSample w.motion := by
  have hunread : ∀ w, Unread (World.motion w) → started w.drive = false := fun _ h => h.1.1
  have hread : ∀ w, BeforeSample (World.motion w) → started w.drive = false := fun _ h => h.1.1
  refine (Triple.of_preserves unread_stable hunread
    ((settingsInit_keeps_motion ops).preserves Unread)).seq ?_
  refine .act (R := fun w => Unread w.motion) unread_stable hunread (fun w hw => ⟨?_, hw.2⟩) ?_
  · refine ⟨?_, hw.1.2⟩
    simpa [started, isStart, World.motion, World.setDrive, halMotorInit, halMotorSetDirection,
      halMotorEnable, Drive.log] using hw.1.1
  refine .act (R := fun w => Unread w.motion) unread_stable hunread (fun w hw => hw) ?_
  refine .act (R := fun w => BeforeSample w.motion) unread_stable hunread
    (fun w hw => ⟨hw.1, .inr (.inl ?_)⟩) ?_
  · simp [initLevel, World.motion, World.observe, appSwitchGetState, appSwitchInit]
  · exact .of_preserves beforeSample_stable hread
      ⟨fun _ hw => hw, fun _ hw => hw, fun _ hw => hw, fun _ hw => hw, trivial⟩

end

/-! ## Main results -/

/-- After a boot that read the switch as off, every start of every run has been
asked for. -/
theorem solicited_run (fl : ℚ → ℚ) (crc : List (BitVec 32) → BitVec 32) (start : PowerUp)
    (schedule : List (Event Bool PassInput)) :
    StartInv (runFrom fl crc start schedule).state.motion :=
  runFrom_invariant (A := StartInv) (I := StartInv) start
    (boot_startInv start.repair _ ⟨rfl, rfl⟩) pass_startInv schedule

/-- Where every edge test is genuine, nothing is started before the switch counts as off at
boot or a start has been asked for. -/
theorem started_accounted {fl : ℚ → ℚ} {crc : List (BitVec 32) → BitVec 32} {start : PowerUp}
    {schedule : List (Event Bool PassInput)} (hedges : EdgesGenuine fl crc start schedule) :
    let w := (runFrom fl crc start schedule).state
    started w.drive = false ∨ Accounted w.history := by
  refine System.run_through (I := fun w : World => started w.drive = false)
    (P := fun w => BeforeSample w.motion) (R := fun w => SampledKnown w.motion)
    (Q := fun w => Accounted w.history) pass_eq (fun hdone => by cases hdone)
    toEdgeTest_sampledKnown fromEdgeTest_accounted pass_accounted ?_ ?_
  · rintro before after heq hcode ⟨⟨-, hlast⟩, hlevel⟩
    rcases hedges before after heq hcode with hsame | hoff | hmoved
    · -- the sampled level is off, and it is the level read unless that has been left
      have hoff : (World.motion ((firmware fl crc).run before
          (start.config crc)).state).currentSwitchState = false := hsame.trans hlast
      rw [hoff] at hlevel
      rcases hlevel with hoff | hoff | hmoved
      · exact .inl hoff
      · exact .inl hoff
      · exact .inr (Bool.or_eq_true_iff.mpr (.inr hmoved))
    · exact .inl hoff
    · exact .inr (Bool.or_eq_true_iff.mpr (.inr hmoved))
  · exact boot_beforeSample start.repair _ ⟨⟨rfl, rfl⟩, rfl⟩

/-- In every run whose edge tests are genuine, the motor is started only after a start command
or a change of the switch. -/
theorem no_unsolicited_start (fl : ℚ → ℚ) (crc : List (BitVec 32) → BitVec 32) (start : PowerUp)
    (schedule : List (Event Bool PassInput)) (hedges : EdgesGenuine fl crc start schedule) :
    let w := (runFrom fl crc start schedule).state
    started w.drive = true → solicited w.history = true := by
  intro w hstarted
  rcases started_accounted hedges with hnot | hoff | hsolicited
  · exact absurd hstarted (by rw [hnot]; decide)
  · exact solicited_run fl crc start schedule hoff (by simp [triggered, World.motion, w, hstarted])
  · exact hsolicited

/-- A schedule can be checked prefix by prefix. -/
theorem edgesGenuine_of_forall {fl : ℚ → ℚ} {crc : List (BitVec 32) → BitVec 32}
    {start : PowerUp} {schedule : List (Event Bool PassInput)}
    (h : ∀ i < schedule.length, EdgeGenuine (runFrom fl crc start (schedule.take i)).state) :
    EdgesGenuine fl crc start schedule := by
  rintro before after rfl -
  have hi := h before.length (by simp)
  rwa [List.take_left] at hi

/-- Power-up with the switch on; it is released during the delay of the boot, and a master
asks for a start in the first pass. -/
def releasedDuringBoot : List (Event Bool PassInput) :=
  List.replicate 7 .main ++ List.replicate 51 (.irq true) ++ List.replicate 13 .main ++
    .enter (writes [(.motorCtrl, 1)]) :: List.replicate 50 .main

/-- The motor is started, by the command. -/
theorem no_unsolicited_start_released :
    let w := (runFrom id (fun _ => 0) (emptyFlash true) releasedDuringBoot).state
    initLevel w.history = some true ∧ started w.drive = true ∧ solicited w.history = true := by
  have hstarted : started
      (runFrom id (fun _ => 0) (emptyFlash true) releasedDuringBoot).state.drive = true := by
    decide +kernel
  exact ⟨by decide +kernel, hstarted, no_unsolicited_start id _ _ releasedDuringBoot
    (edgesGenuine_of_forall (by decide +kernel)) hstarted⟩

/-- With the switch on, the first pass starts the motor by itself. -/
theorem started_by_switch_position :
    let w := (runFrom id (fun _ => 0) (emptyFlash true) (bootAndPasses [writes []])).state
    initLevel w.history = some true ∧ started w.drive = true ∧ solicited w.history = false := by
  decide +kernel

end Firmware
end MDCMotorControl
