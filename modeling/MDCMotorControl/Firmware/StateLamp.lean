import MDCMotorControl.Firmware.MotionView
import MDCMotorControl.Library.ProgramPoints
import MDCMotorControl.Library.StepRelations
import MDCMotorControl.Panel.Blinking

/-!
# The lamp of the motor state

Every pass of the main loop requests for lamp 0 the mode of the motor state that it has
sampled, and every tick lets the lamps blink.  Both lamps are mapped to one pin, and only
lamp 0 is ever driven.  `App_Lamp_SetMode` assigns the mode before it clears the counter
and drives the pin, and ticks may land in between.

Main results:

- Theorem `pass_lamp`: a pass returns with the mode of the state it has sampled.
- Theorem `run_points`: a static mode is on the pin, unless the request that sets it is
  still going on.
- Theorem `lamp_shows_state`: the mode, the level of the pin and the toggles of the lamp
  over whole runs.
-/

namespace MDCMotorControl
namespace Firmware

open Interruptible Motor Modbus Panel FlashSector

/-- The mode that the motor state machine requests in a state. -/
def stateLamp : MotorState → LampMode
  | .stopped => .off
  | .accelerating => .blinkFast
  | .cruising => .on
  | .decelerating => .blinkFast

/-- The level of a lamp's pin after calls, most recent call first; the initialisation has
set it low. -/
def pinLevel : List LampCall → Bool
  | [] => false
  | .setState state :: _ => state
  | .toggle :: earlier => !pinLevel earlier

/-- The static modes of a lamp show on the pin. -/
structure Lit (lamp : Lamp) : Prop where
  off : lamp.currentMode = .off → pinLevel lamp.calls = false
  on : lamp.currentMode = .on → pinLevel lamp.calls = true

/-! ## The lamp by itself -/

section

variable {lamp : Lamp} {mode : LampMode}

/-- A tick moves the pin in a blinking mode only. -/
theorem Lit.tick (h : Lit lamp) : Lit lamp.tick := by
  have hstatic : lamp.currentMode.blinkInterval = none → lamp.tick = lamp := by
    intro hnone
    simp [Lamp.tick, hnone]
  refine ⟨fun hoff => ?_, fun hon => ?_⟩
  · rw [Lamp.tick_currentMode] at hoff
    rw [hstatic (by rw [hoff]; rfl)]
    exact h.off hoff
  · rw [Lamp.tick_currentMode] at hon
    rw [hstatic (by rw [hon]; rfl)]
    exact h.on hon

/-- In a blinking mode nothing is asked of the pin. -/
theorem lit_of_blinking {interval : ℕ} (h : lamp.currentMode.blinkInterval = some interval) :
    Lit lamp := by
  refine ⟨fun hoff => ?_, fun hon => ?_⟩
  · rw [hoff] at h
    cases h
  · rw [hon] at h
    cases h

/-- The last statement of a change to a mode. -/
def finishChange : LampMode → Lamp → Lamp
  | .off => halLampSetState false
  | .on => halLampSetState true
  | .blinkSlow => ({ · with timeCounter := 0 })
  | .blinkFast => ({ · with timeCounter := 0 })

/-- The statements of a change after the assignment of the mode. -/
def changeSteps : LampMode → ℕ
  | .off => 2
  | .on => 2
  | .blinkSlow => 1
  | .blinkFast => 1

@[simp] theorem finishChange_currentMode :
    (finishChange mode lamp).currentMode = lamp.currentMode := by
  cases mode <;> rfl

theorem lit_finishChange (h : lamp.currentMode = mode) : Lit (finishChange mode lamp) := by
  constructor <;> intro hstatic <;> rw [finishChange_currentMode, h] at hstatic <;>
    subst hstatic <;> rfl

/-- With it the count of the new mode starts. -/
theorem sinceChange_finishChange (h : lamp.currentMode = mode) :
    SinceChange mode 0 lamp.calls (finishChange mode lamp) := by
  cases mode <;> constructor <;>
    simp [finishChange, halLampSetState, LampMode.callsAfter, LampMode.blinkInterval, h]

end

/-! ## What a pass does to the lamps -/

@[simp] theorem setLamps_onLamp (f : Lamp → Lamp) (lamps : Lamps) (w : World) :
    (w.setLamps (onLamp 0 f lamps)).lamps 0 = f (lamps 0) :=
  onLamp_same 0 f lamps

section

variable {fl : ℚ → ℚ} {crc : List (BitVec 32) → BitVec 32}

/-- The commands leave the lamps alone. -/
theorem commands_lamps : commands.Keeps World.lamps := by
  have hperipheral := peripheralCommands_keep
  simp only [List.mem_cons, List.not_mem_nil, or_false, forall_eq_or_imp, forall_eq]
    at hperipheral
  obtain ⟨hstreamStart, hstreamStop, hbaud, hdir⟩ := hperipheral
  have hlamps : ∀ {c : Code World}, (c.Keeps fun w => (w.motion, w.lamps)) →
      c.Keeps World.lamps :=
    fun hc lamps => hc.preserves fun a => a.2 = lamps
  have hreboot : rebootCommand.Keeps World.lamps :=
    .whenever fun _ => ⟨fun _ => id, fun _ => id, fun _ => id, trivial⟩
  exact .block_cons (.whenever_pair (fun _ => rfl) fun _ => rfl) <|
    .block_cons (.whenever_pair (fun _ => rfl) fun _ => rfl) <|
    .block_cons (.whenever_pair (fun _ => rfl) fun _ => rfl) <|
    .block_cons (hlamps hstreamStart) <| .block_cons (hlamps hstreamStop) <|
    .block_cons (hlamps hbaud) <| .pair (hlamps hdir) hreboot

/-- The stages of a pass before the motor state machine. -/
def beforeMachine (fl : ℚ → ℚ) (crc : List (BitVec 32) → BitVec 32) (input : PassInput) :
    Code World :=
  .block [mxLwipProcess fl input.deliveries, sampleInputs, saveCommand crc input.save, commands]

theorem pass_eq_beforeMachine (input : PassInput) :
    pass fl crc input = (beforeMachine fl crc input).seq (motorStateMachine fl) := by
  rw [← Code.block_singleton (motorStateMachine fl), beforeMachine, ← Code.block_append]
  rfl

theorem beforeMachine_lamps (input : PassInput) :
    (beforeMachine fl crc input).Keeps World.lamps := by
  have hreceive : (mxLwipProcess fl input.deliveries).Keeps World.lamps :=
    fun _ => mxLwipProcess_preserves fl (fun _ _ _ => id) input.deliveries
  have hsample : sampleInputs.Keeps World.lamps :=
    .pair (.stmt fun _ => rfl) (.stmt fun _ => rfl)
  have hsave : (saveCommand crc input.save).Keeps World.lamps :=
    saveCommand_keeps crc (fun _ => rfl) (fun _ => rfl) (fun _ _ => rfl) input.save
  exact .block_cons hreceive <| .block_cons hsample <| .pair hsave commands_lamps

/-- The code of the motor state machine in one state. -/
def stateAction (fl : ℚ → ℚ) : MotorState → Code World
  | .stopped => .whenever (·.ctl.sysMotorRunRequest) (startMotor fl)
  | .accelerating => stopUnlessRequested
  | .cruising => stopUnlessRequested
  | .decelerating => .done

/-- In every state the machine first requests the mode of that state. -/
theorem motorStateMachine_eq :
    motorStateMachine fl = .eval fun w =>
      (setLamp (stateLamp w.ctl.motorState)).seq (stateAction fl w.ctl.motorState) := by
  unfold motorStateMachine
  congr 1
  funext w
  cases w.ctl.motorState with
  | stopped => exact congrArg (Code.seq _) (Code.seq_done_right _)
  | accelerating => exact congrArg (Code.seq _) (Code.seq_done_right _)
  | cruising => exact congrArg (Code.seq _) (Code.seq_done_right _)
  | decelerating => exact (Code.seq_done_right _).symm

/-- What follows the request leaves the lamps and the sample alone. -/
theorem stateAction_keeps (state : MotorState) :
    (stateAction fl state).Keeps fun w => (w.ctl.motorState, w.lamps) := by
  have hdrive : ∀ c, (onDrive c).Keeps fun w => (w.ctl.motorState, w.lamps) :=
    onDrive_keeps fun _ _ => rfl
  have hstart : (startMotor fl).Keeps fun w => (w.ctl.motorState, w.lamps) :=
    .pair (fun a _ => hdrive _ a) fun a _ => hdrive _ a
  cases state with
  | stopped => exact .whenever hstart
  | accelerating => exact .whenever (hdrive _)
  | cruising => exact .whenever (hdrive _)
  | decelerating => exact .block_nil

/-! ## The points inside of a request -/

/-- A request reads the mode, and changes it if it is another one. -/
theorem setLamp_eq (mode : LampMode) :
    setLamp mode = .whenever (fun w => (w.lamps 0).currentMode ≠ mode)
      (onLamps (changeModeCode 0 mode)) := by
  have hcode : appLampSetModeCode 0 mode =
      .whenever (fun lamps => (lamps 0).currentMode ≠ mode) (changeModeCode 0 mode) :=
    dif_pos (by decide)
  rw [setLamp, hcode]
  exact Code.lift_whenever _ _

/-- The statement that ends a change of lamp 0. -/
def finish (mode : LampMode) (w : World) : World :=
  w.setLamps (onLamp 0 (finishChange mode) w.lamps)

/-- The statement that clears the counter of lamp 0. -/
def clearCounter (w : World) : World :=
  w.setLamps (onLamp 0 ({ · with timeCounter := 0 }) w.lamps)

/-- A change to a static mode clears the counter and ends by driving the pin. -/
theorem afterModeAssigned_static {mode : LampMode} (h : mode.blinkInterval = none)
    (tail : Code World) : (onLamps (afterModeAssigned 0 mode)).seq tail =
      .act clearCounter (.act (finish mode) tail) := by
  cases mode with
  | off => rfl
  | on => rfl
  | blinkSlow => cases h
  | blinkFast => cases h

/-- A change to a blinking mode ends by clearing the counter. -/
theorem afterModeAssigned_blinking {mode : LampMode} {interval : ℕ}
    (h : mode.blinkInterval = some interval) (tail : Code World) :
    (onLamps (afterModeAssigned 0 mode)).seq tail = .act (finish mode) tail := by
  cases mode with
  | off => cases h
  | on => cases h
  | blinkSlow => rfl
  | blinkFast => rfl

theorem lit_finish {mode : LampMode} {w : World} (h : (w.lamps 0).currentMode = mode) :
    Lit ((finish mode w).lamps 0) := by
  rw [finish, setLamps_onLamp]
  exact lit_finishChange h

/-- A statement that leaves the lamps alone. -/
def KeepsLamps (f : World → World) : Prop :=
  ∀ w, (f w).lamps = w.lamps

/-- The code of a request. -/
def IsRequest (c : Code World) : Prop :=
  ∃ mode, c = setLamp mode

/-- The main context is inside of a request: the guard has found another mode, or the mode
is assigned, or the pin of a static mode remains to be set. -/
inductive Changing : Config World → Prop
  | guarded {mode : LampMode} {tail : Code World} {w : World} (hlit : Lit (w.lamps 0))
      (htail : tail.Sectioned KeepsLamps IsRequest) :
      Changing ⟨(onLamps (changeModeCode 0 mode)).seq tail, w⟩
  | assigned {mode : LampMode} {tail : Code World} {w : World}
      (hmode : (w.lamps 0).currentMode = mode) (htail : tail.Sectioned KeepsLamps IsRequest) :
      Changing ⟨(onLamps (afterModeAssigned 0 mode)).seq tail, w⟩
  | cleared {mode : LampMode} {tail : Code World} {w : World}
      (hmode : (w.lamps 0).currentMode = mode) (htail : tail.Sectioned KeepsLamps IsRequest) :
      Changing ⟨.act (finish mode) tail, w⟩

/-- Outside of a request, or inside. -/
def AtPoint (c : Config World) : Prop :=
  Lit (c.state.lamps 0) ∧ c.code.Sectioned KeepsLamps IsRequest ∨ Changing c

theorem lit_stable : Stable (sysTickHandler fl) fun w => Lit (w.lamps 0) := by
  intro pin w h
  rw [sysTickHandler_lamps]
  exact h.tick

theorem currentMode_stable (mode : LampMode) :
    Stable (sysTickHandler fl) fun w => (w.lamps 0).currentMode = mode := by
  intro pin w h
  rw [sysTickHandler_lamps, appLampTick1ms, Lamp.tick_currentMode]
  exact h

theorem pass_sectioned (input : PassInput) :
    (pass fl crc input).Sectioned KeepsLamps IsRequest := by
  rw [pass_eq_beforeMachine, motorStateMachine_eq]
  refine .seq (.of_keeps (beforeMachine_lamps input)) (.eval fun w => .marked ⟨_, rfl⟩ ?_)
  have hlamps : (stateAction fl w.ctl.motorState).Keeps World.lamps :=
    fun lamps => (stateAction_keeps _).preserves fun a => a.2 = lamps
  exact .of_keeps hlamps

/-- One event at a request. -/
theorem step_setLamp {mode : LampMode} {tail : Code World} {w : World}
    (htail : tail.Sectioned KeepsLamps IsRequest) (hw : Lit (w.lamps 0))
    (e : Event Bool PassInput) :
    AtPoint ((firmware fl crc).step e ⟨(setLamp mode).seq tail, w⟩) := by
  have hwaits : ((setLamp mode).seq tail).Sectioned KeepsLamps IsRequest :=
    .marked ⟨mode, rfl⟩ htail
  cases e with
  | main =>
      rw [setLamp_eq]
      have hread : (firmware fl crc).step .main ⟨(Code.whenever
          (fun w : World => (w.lamps 0).currentMode ≠ mode)
          (onLamps (changeModeCode 0 mode))).seq tail, w⟩ =
            ⟨(bif decide ((w.lamps 0).currentMode ≠ mode) then onLamps (changeModeCode 0 mode)
              else .done).seq tail, w⟩ := rfl
      rw [hread]
      cases decide ((w.lamps 0).currentMode ≠ mode) with
      | false => exact .inl ⟨hw, htail⟩
      | true => exact .inr (.guarded hw htail)
  | irq pin => exact .inl ⟨lit_stable pin w hw, hwaits⟩
  | enter input => exact .inl ⟨hw, hwaits⟩

/-- One event inside of a request. -/
theorem Changing.step {c : Config World} (h : Changing c) (e : Event Bool PassInput) :
    AtPoint ((firmware fl crc).step e c) := by
  cases h with
  | guarded hlit htail =>
      cases e with
      | main => exact .inr (.assigned (by simp) htail)
      | irq pin => exact .inr (.guarded (lit_stable pin _ hlit) htail)
      | enter input => exact .inr (.guarded hlit htail)
  | @assigned mode tail w hmode htail =>
      cases e with
      | main =>
          cases hinterval : mode.blinkInterval with
          | none =>
              rw [afterModeAssigned_static hinterval]
              exact .inr (.cleared (by simp [clearCounter, hmode]) htail)
          | some interval =>
              rw [afterModeAssigned_blinking hinterval]
              exact .inl ⟨lit_finish hmode, htail⟩
      | irq pin => exact .inr (.assigned (currentMode_stable mode pin _ hmode) htail)
      | enter input => exact .inr (.assigned hmode htail)
  | @cleared mode tail w hmode htail =>
      cases e with
      | main => exact .inl ⟨lit_finish hmode, htail⟩
      | irq pin => exact .inr (.cleared (currentMode_stable mode pin _ hmode) htail)
      | enter input => exact .inr (.cleared hmode htail)

/-- A run from the end of a pass is always at one of the points. -/
theorem run_points {c : Config World} (hdone : c.code = .done) (hlit : Lit (c.state.lamps 0))
    (es : List (Event Bool PassInput)) : AtPoint ((firmware fl crc).run es c) := by
  have hplain : ∀ f, KeepsLamps f → ∀ w : World, Lit (w.lamps 0) → Lit ((f w).lamps 0) :=
    fun f hf w hw => by rwa [hf w]
  refine System.run_sections (fun w : World => Lit (w.lamps 0)) (fun _ => Changing) lit_stable
    hplain (fun _ input _ _ => .inl (pass_sectioned input)) ?_ (fun _ e _ _ h => h.step e)
    (.inl ⟨hlit, hdone ▸ .done⟩) (List.append_nil es).symm
  rintro done e - d tail - ⟨mode, rfl⟩ htail hcode hlit
  generalize (firmware fl crc).run done c = c' at hcode hlit
  obtain ⟨code, w⟩ := c'
  obtain rfl : code = (setLamp mode).seq tail := hcode
  exact step_setLamp htail hlit e

/-! ## Counting the ticks of a mode -/

/-- While a mode stays, a pass leaves the lamps alone: a request for another mode would
change it. -/
theorem stepsWhile_of_sectioned {c : Code World} (h : c.Sectioned KeepsLamps IsRequest)
    (mode : LampMode) :
    c.StepsWhile (fun w => (w.lamps 0).currentMode = mode) fun w w' => w'.lamps = w.lamps := by
  induction h with
  | done => trivial
  | halt => trivial
  | act hf _ ih => exact fun w _ _ => ⟨hf w, ih⟩
  | eval _ ih => exact fun w _ => ih w
  | marked hrequest _ ih =>
      obtain ⟨requested, rfl⟩ := hrequest
      refine .seq ?_ ih
      rw [setLamp_eq]
      intro w hw
      show (bif decide ((w.lamps 0).currentMode ≠ requested) then
        onLamps (changeModeCode 0 requested) else .done).StepsWhile _ _
      by_cases hsame : requested = mode
      · simp only [hw, hsame, ne_eq, not_true_eq_false, decide_false]
        trivial
      · have hother : (w.lamps 0).currentMode ≠ requested := fun heq => hsame (heq.symm.trans hw)
        simp only [hother, ne_eq, not_false_eq_true, decide_true]
        intro v _ hafter
        have hassigned := setLamps_onLamp ({ · with currentMode := requested }) v.lamps v
        exact absurd ((congrArg Lamp.currentMode hassigned).symm.trans hafter) hsame

/-- Only the main context changes the mode. -/
theorem step_currentMode {e : Event Bool PassInput} (he : e ≠ .main) (c : Config World) :
    (((firmware fl crc).step e c).state.lamps 0).currentMode =
      (c.state.lamps 0).currentMode := by
  rcases c with ⟨code, w⟩
  cases e with
  | main => exact absurd rfl he
  | irq pin =>
      have htick := @currentMode_stable fl (w.lamps 0).currentMode pin w rfl
      cases code with
      | halt => rfl
      | done => exact htick
      | act f next => exact htick
      | eval next => exact htick
  | enter input => cases code <;> rfl

/-- A change of the mode is an assignment in a request. -/
theorem change_point {c : Config World} (hpoint : AtPoint c) {e : Event Bool PassInput}
    {mode : LampMode} (hbefore : (c.state.lamps 0).currentMode ≠ mode)
    (hafter : (((firmware fl crc).step e c).state.lamps 0).currentMode = mode) :
    ∃ tail, tail.Sectioned KeepsLamps IsRequest ∧
      ((firmware fl crc).step e c).code = (onLamps (afterModeAssigned 0 mode)).seq tail := by
  by_cases hmain : e = .main
  · subst hmain
    rcases hpoint with ⟨-, hcode⟩ | hchanging
    · exfalso
      obtain ⟨code, w⟩ := c
      change code.Sectioned KeepsLamps IsRequest at hcode
      cases hcode with
      | done => exact hbefore hafter
      | halt => exact hbefore hafter
      | act hf _ =>
          have hsame := congrArg (fun lamps : Lamps => (lamps 0).currentMode) (hf w)
          exact hbefore (hsame.symm.trans hafter)
      | eval _ => exact hbefore hafter
      | marked hrequest _ =>
          obtain ⟨requested, rfl⟩ := hrequest
          rw [setLamp_eq] at hafter
          exact hbefore hafter
    · cases hchanging with
      | @guarded requested tail w _ htail =>
          have hassigned := setLamps_onLamp ({ · with currentMode := requested }) w.lamps w
          obtain rfl : requested = mode := (congrArg Lamp.currentMode hassigned).symm.trans hafter
          exact ⟨tail, htail, rfl⟩
      | @assigned requested tail w _ _ =>
          have hcleared := setLamps_onLamp ({ · with timeCounter := 0 }) w.lamps w
          exact absurd ((congrArg Lamp.currentMode hcleared).symm.trans hafter) hbefore
      | @cleared requested tail w _ _ =>
          have hfinish := congrArg Lamp.currentMode
            (setLamps_onLamp (finishChange requested) w.lamps w)
          rw [finishChange_currentMode] at hfinish
          exact absurd (hfinish.symm.trans hafter) hbefore
  · exact absurd ((step_currentMode hmain c).symm.trans hafter) hbefore

/-- The statements after the assignment lead to the one that ends the change. -/
theorem run_changeSteps {mode : LampMode} {tail : Code World} {c : Config World}
    {during : List (Event Bool PassInput)}
    (hcode : c.code = (onLamps (afterModeAssigned 0 mode)).seq tail)
    (hsteps : programSteps during + 1 = changeSteps mode) :
    ((firmware fl crc).run during c).code = .act (finish mode) tail := by
  cases hinterval : mode.blinkInterval with
  | none =>
      have htwo : changeSteps mode = 2 := by cases mode <;> first | rfl | cases hinterval
      rw [afterModeAssigned_static hinterval] at hcode
      obtain ⟨toClear, toEnd, rfl, hclear, hend⟩ :=
        exists_programStep (Nat.succ.inj (hsteps.trans htwo))
      have hcleared := System.run_of_waiting (firmware fl crc) (c := c) (by simp [hcode]) hclear
      rw [System.run_append, System.run_cons]
      generalize (firmware fl crc).run toClear c = c' at hcleared
      obtain ⟨code, w⟩ := c'
      obtain rfl : code = .act clearCounter (.act (finish mode) tail) := hcleared.trans hcode
      exact System.run_of_waiting _ (c := ⟨.act (finish mode) tail, clearCounter w⟩)
        (fun hdone => by cases hdone) hend
  | some interval =>
      have hone : changeSteps mode = 1 := by cases mode <;> first | rfl | cases hinterval
      rw [afterModeAssigned_blinking hinterval] at hcode
      have hwait : programSteps during = 0 := by omega
      rw [System.run_of_waiting _ (by simp [hcode]) hwait, hcode]

/-- From the end of a change on, the ticks make up the calls as long as the mode stays. -/
theorem finish_counts {c : Config World} {mode : LampMode} {tail : Code World}
    (hcode : c.code = .act (finish mode) tail) (htail : tail.Sectioned KeepsLamps IsRequest)
    (hmode : (c.state.lamps 0).currentMode = mode) {after : List (Event Bool PassInput)}
    (hkept : ∀ done rest, after = done ++ rest →
      (((firmware fl crc).run (.main :: done) c).state.lamps 0).currentMode = mode)
    (hrunning : ((firmware fl crc).run (.main :: after) c).code ≠ .halt) :
    (((firmware fl crc).run (.main :: after) c).state.lamps 0).calls =
      mode.callsAfter (handlerRuns after) ++ (c.state.lamps 0).calls := by
  obtain ⟨code, w⟩ := c
  obtain rfl : code = .act (finish mode) tail := hcode
  have hstart : SinceChange mode 0 (w.lamps 0).calls ((finish mode w).lamps 0) := by
    rw [finish, setLamps_onLamp]
    exact sinceChange_finishChange hmode
  have htick : ∀ n pin v, SinceChange mode n (w.lamps 0).calls (v.lamps 0) →
      SinceChange mode (n + 1) (w.lamps 0).calls ((sysTickHandler fl pin v).lamps 0) := by
    intro n pin v h
    rw [sysTickHandler_lamps]
    exact h.tick
  have hbody : ∀ input, ((firmware fl crc).body input).StepsWhile
      (fun w => (w.lamps 0).currentMode = mode) fun w w' => w'.lamps = w.lamps :=
    fun input => stepsWhile_of_sectioned (pass_sectioned input) mode
  have hcount := System.counts_while (c := ⟨tail, finish mode w⟩)
    (W := fun n v => SinceChange mode n (w.lamps 0).calls (v.lamps 0)) hbody
    (stepsWhile_of_sectioned htail mode) (fun n v v' hsame h => by rwa [hsame]) htick hstart
    after hkept hrunning
  exact hcount.2.calls_eq

/-! ## What a pass returns with -/

/-- The mode of lamp 0 belongs to the state that the main loop has sampled. -/
def ShowsSample (w : World) : Prop :=
  (w.lamps 0).currentMode = stateLamp w.ctl.motorState

/-- Between two passes the mode is that of the sample, and a static mode is on the pin. -/
def LampSettled (w : World) : Prop :=
  Lit (w.lamps 0) ∧ ShowsSample w

/-- A tick changes neither the mode nor the sample. -/
theorem lampSettled_stable : Stable (sysTickHandler fl) LampSettled := by
  refine lit_stable.and fun pin w h => ?_
  rw [ShowsSample, sysTickHandler_ctl]
  exact currentMode_stable _ pin w h

/-- A change to the mode of the sample, whatever ticks come in. -/
theorem changeMode_lampSettled (state : MotorState) :
    Triple (sysTickHandler fl) (fun _ => True) (fun w => w.ctl.motorState = state)
      (onLamps (changeModeCode 0 (stateLamp state))) LampSettled := by
  have hsample : Stable (sysTickHandler fl) fun w => w.ctl.motorState = state :=
    stable_ctl (R := fun ctl => ctl.motorState = state)
  have hassigned : Stable (sysTickHandler fl) fun w =>
      (w.lamps 0).currentMode = stateLamp state ∧ w.ctl.motorState = state :=
    (currentMode_stable _).and hsample
  have htrue : ∀ (P : World → Prop) (w : World), P w → True := fun _ _ _ => trivial
  have hfinish : Triple (sysTickHandler fl) (fun _ => True)
      (fun w => (w.lamps 0).currentMode = stateLamp state ∧ w.ctl.motorState = state)
      (Code.stmt (finish (stateLamp state))) LampSettled := by
    refine .stmt hassigned (htrue _) lampSettled_stable (htrue _) fun w hw => ?_
    refine ⟨lit_finish hw.1, ?_⟩
    rw [ShowsSample, finish, setLamps_onLamp, finishChange_currentMode, hw.1]
    exact congrArg stateLamp hw.2.symm
  refine .act hsample (htrue _) (R := fun w =>
    (w.lamps 0).currentMode = stateLamp state ∧ w.ctl.motorState = state) (fun w hw => ?_) ?_
  · exact ⟨congrArg Lamp.currentMode (setLamps_onLamp _ w.lamps w), hw⟩
  · rw [← Code.seq_done_right (Code.lift _ _ _)]
    cases hinterval : (stateLamp state).blinkInterval with
    | none =>
        refine afterModeAssigned_static hinterval .done ▸ Triple.act hassigned (htrue _)
          (fun w hw => ⟨?_, hw.2⟩) hfinish
        rw [clearCounter, setLamps_onLamp]
        exact hw.1
    | some interval => exact afterModeAssigned_blinking hinterval .done ▸ hfinish

/-- A pass returns with the mode of the state that it has sampled, and with a static mode
on the pin. -/
theorem pass_lamp (input : PassInput) :
    Triple (sysTickHandler fl) (fun _ => True) (fun w => Lit (w.lamps 0)) (pass fl crc input)
      LampSettled := by
  have htrue : ∀ (P : World → Prop) (w : World), P w → True := fun _ _ _ => trivial
  have hbefore : (beforeMachine fl crc input).Preserves fun w => Lit (w.lamps 0) :=
    (beforeMachine_lamps input).preserves fun lamps => Lit (lamps 0)
  rw [pass_eq_beforeMachine, motorStateMachine_eq]
  refine (Triple.of_preserves lit_stable (htrue _) hbefore).seq ?_
  refine Triple.eval lit_stable (htrue _) fun w hw => ?_
  -- the sample stays while ticks come in before the request
  have hsampled : Stable (sysTickHandler fl) fun v =>
      Lit (v.lamps 0) ∧ v.ctl.motorState = w.ctl.motorState :=
    lit_stable.and (stable_ctl (R := fun ctl => ctl.motorState = w.ctl.motorState))
  have hset : Triple (sysTickHandler fl) (fun _ => True)
      (fun v => Lit (v.lamps 0) ∧ v.ctl.motorState = w.ctl.motorState)
      (setLamp (stateLamp w.ctl.motorState)) LampSettled := by
    rw [setLamp_eq]
    refine .whenever hsampled (htrue _) lampSettled_stable (htrue _) ?_ fun v hv hsame => ?_
    · exact fun v hv _ => changeMode_lampSettled w.ctl.motorState v hv.2
    · refine ⟨hv.1, ?_⟩
      rw [ShowsSample, hv.2]
      simpa using hsame
  have hrest : (stateAction fl w.ctl.motorState).Preserves LampSettled :=
    (stateAction_keeps _).preserves fun a =>
      Lit (a.2 0) ∧ (a.2 0).currentMode = stateLamp a.1
  exact (hset.seq (.of_preserves lampSettled_stable (htrue _) hrest)) w ⟨hw, rfl⟩

/-! ## Whole runs -/

/-- The lamps while the boot runs. -/
def Booting (w : World) : Prop :=
  w.lamps = initialLamps ∧ w.ctl.motorState = .stopped

theorem booting_stable : Stable (sysTickHandler fl) Booting := by
  rintro pin w ⟨hlamps, hstate⟩
  refine ⟨?_, by rw [sysTickHandler_ctl, hstate]⟩
  rw [sysTickHandler_lamps, hlamps]
  rfl

theorem boot_booting (ops : Outcomes 12) : (boot crc ops).Preserves Booting := by
  have hctl : ∀ f : Control → Control, (∀ ctl, (f ctl).motorState = ctl.motorState) →
      (Code.stmt (World.onCtl f)).Preserves Booting :=
    fun f hf => .stmt fun w hw => ⟨hw.1, (hf w.ctl).trans hw.2⟩
  refine .block_cons ?_ <| .block_cons (.stmt fun _ => id) <|
    .block_cons (hctl _ fun _ => rfl) <| .block_cons (.stmt fun _ => id) <|
    .block_cons (.stmt fun w hw => ⟨?_, hw.2⟩) <| .block_cons (hctl _ fun _ => rfl) <|
    .block_cons (.stmt fun _ => id) <| .block_cons (hctl _ fun _ => rfl) .block_nil
  · have hkeeps : (settingsInit crc ops).Keeps fun w => (w.lamps, w.ctl.motorState) :=
      settingsInit_keeps crc (fun _ _ => rfl) ops
    exact hkeeps.preserves fun a => a.1 = initialLamps ∧ a.2 = .stopped
  · show appLampInit w.lamps = initialLamps
    rw [hw.1]
    rfl

theorem Booting.lampSettled {w : World} (h : Booting w) : LampSettled w := by
  refine ⟨?_, by rw [ShowsSample, h.1, h.2]; rfl⟩
  rw [h.1]
  exact ⟨fun _ => rfl, nofun⟩

/-- Along every run from power-up, what remains of a pass returns settled. -/
theorem run_lampSettled (start : PowerUp) (es : List (Event Bool PassInput)) :
    wp (sysTickHandler fl) (fun _ => True) LampSettled (runFrom fl crc start es).code
      (runFrom fl crc start es).state := by
  refine (firmware fl crc).run_invariant (fun input w hw => pass_lamp input w hw.1) ?_ es
  exact wp_mono (fun _ => id) (fun _ => Booting.lampSettled) (Triple.of_preserves booting_stable
    (fun _ _ => trivial) (boot_booting start.repair) _ ⟨rfl, rfl⟩)

/-- Nothing is ever requested of the second lamp. -/
def SecondUnused (lamps : Lamps) : Prop :=
  lamps 1 = initialLamps 1

theorem run_second (start : PowerUp) (es : List (Event Bool PassInput)) :
    SecondUnused (runFrom fl crc start es).state.lamps := by
  have hstable : Stable (firmware fl crc).irq fun w => SecondUnused w.lamps := by
    intro pin w h
    show (sysTickHandler fl pin w).lamps 1 = initialLamps 1
    rw [sysTickHandler_lamps, appLampTick1ms, show w.lamps 1 = initialLamps 1 from h]
    rfl
  have hlamp : ∀ f, (Code.stmt (onLamp 0 f)).Preserves SecondUnused :=
    fun f => .stmt fun lamps h => (onLamp_other (by decide) f lamps).trans h
  have hrequest : ∀ mode, (setLamp mode).Preserves fun w => SecondUnused w.lamps := by
    intro mode
    refine .lift (fun _ _ => rfl) (.whenever ?_)
    refine .seq (hlamp _) (.seq (hlamp _) ?_)
    cases mode with
    | off => exact hlamp _
    | on => exact hlamp _
    | blinkSlow => exact .block_nil
    | blinkFast => exact .block_nil
  have hpass : ∀ input, (pass fl crc input).Preserves fun w => SecondUnused w.lamps := by
    intro input
    rw [pass_eq_beforeMachine, motorStateMachine_eq]
    refine .seq ((beforeMachine_lamps input).preserves SecondUnused) fun w => ?_
    exact (hrequest _).seq ((stateAction_keeps _).preserves fun a => SecondUnused a.2)
  have hinit : ∀ w : World, SecondUnused w.lamps → SecondUnused (appLampInit w.lamps) := by
    intro w h
    rw [SecondUnused, appLampInit, show w.lamps 1 = initialLamps 1 from h]
    rfl
  have hload : (settingsInit crc start.repair).Keeps World.lamps :=
    settingsInit_keeps crc (fun _ _ => rfl) start.repair
  have hboot : (boot crc start.repair).Preserves fun w => SecondUnused w.lamps :=
    .block_cons (hload.preserves SecondUnused)
      ⟨fun _ => id, fun _ => id, fun _ => id, hinit, fun _ => id, fun _ => id, fun _ => id, trivial⟩
  exact (System.run_preserves hstable hpass hboot es).2 rfl

/-! ## Main result -/

/-- A request has assigned a static mode and has not driven the pin yet. -/
def DrivePending (c : Code World) : Prop :=
  ∃ mode tail, mode.blinkInterval = none ∧
    (c = .act clearCounter (.act (finish mode) tail) ∨ c = .act (finish mode) tail)

theorem lit_or_drivePending {c : Config World} (h : AtPoint c) :
    Lit (c.state.lamps 0) ∨ DrivePending c.code := by
  rcases h with ⟨hlit, -⟩ | hchanging
  · exact .inl hlit
  · cases hchanging with
    | guarded hlit _ => exact .inl hlit
    | @assigned mode tail w hmode _ =>
        cases hinterval : mode.blinkInterval with
        | none =>
            exact .inr ⟨mode, tail, hinterval, .inl (afterModeAssigned_static hinterval tail)⟩
        | some interval => exact .inl (lit_of_blinking (hmode ▸ hinterval))
    | @cleared mode tail w hmode _ =>
        cases hinterval : mode.blinkInterval with
        | none => exact .inr ⟨mode, tail, hinterval, .inr rfl⟩
        | some interval => exact .inl (lit_of_blinking (hmode ▸ hinterval))

/-- The lamp over whole runs, once the boot is over.  Where no pass is going on, its mode
belongs to the state that the last pass has sampled: off at standstill, on at cruise and
fast blink on the ramps.  At every moment a static mode is on the pin, unless the request
that has assigned it still has to drive the pin, and the second lamp has never been driven.
And from the last statement of a change of mode on, through any passes that do not change
it again, the calls into the hardware layer are those that the ticks since then make up:
one toggle in 100 while it blinks. -/
theorem lamp_shows_state {start : PowerUp} {booted : List (Event Bool PassInput)}
    (hbooted : (runFrom fl crc start booted).code = .done) :
    (∀ es, let c := runFrom fl crc start (booted ++ es)
      (c.code = .done → ShowsSample c.state) ∧
        (Lit (c.state.lamps 0) ∨ DrivePending c.code) ∧ SecondUnused c.state.lamps) ∧
    ∀ es e during after mode,
      let before := (runFrom fl crc start (booted ++ es)).state.lamps 0
      let since := fun events => runFrom fl crc start (booted ++ es ++ e :: events)
      before.currentMode ≠ mode → programSteps during + 1 = changeSteps mode →
      (∀ done rest, during ++ .main :: after = done ++ rest →
        ((since done).state.lamps 0).currentMode = mode) →
      (since (during ++ .main :: after)).code ≠ .halt →
        ((since (during ++ .main :: after)).state.lamps 0).calls =
          mode.callsAfter (handlerRuns after) ++ ((since during).state.lamps 0).calls := by
  have hsettled : LampSettled (runFrom fl crc start booted).state :=
    wp_returned (run_lampSettled start booted) hbooted
  have hpoint : ∀ es, AtPoint (runFrom fl crc start (booted ++ es)) := by
    intro es
    rw [runFrom, System.run_append]
    exact run_points hbooted hsettled.1 es
  refine ⟨fun es => ⟨fun hdone => ?_, lit_or_drivePending (hpoint es), run_second start _⟩, ?_⟩
  · exact (wp_returned (run_lampSettled start _) hdone).2
  · intro es e during after mode before since hchange hsteps hkept hrunning
    have hsplit : ∀ events, since events = (firmware fl crc).run events
        ((firmware fl crc).step e (runFrom fl crc start (booted ++ es))) :=
      fun events => System.run_append _ _ _ _
    simp only [hsplit] at hkept hrunning ⊢
    obtain ⟨tail, htail, hcode⟩ :=
      change_point (hpoint es) hchange (hkept [] _ (List.nil_append _).symm)
    have hend := @run_changeSteps fl crc _ _ _ _ hcode hsteps
    rw [System.run_append] at hrunning ⊢
    refine finish_counts hend htail (hkept during _ rfl) (fun done rest hafter => ?_) hrunning
    have hmode := hkept (during ++ .main :: done) rest (by rw [hafter]; simp)
    rwa [System.run_append] at hmode

/-- A start: a tick lands between the assignment of the mode and the end of its change, and
100 ms later the lamp has been toggled once. -/
theorem lamp_shows_state_ramp :
    let booted := bootAndPasses [writes [(.motorAccel, 0), (.motorCtrl, 1)]]
    let sampled := .enter (writes []) :: List.replicate 13 .main
    let events := [.irq true] ++ .main :: List.replicate 100 (.irq true)
    ((runFrom id (fun _ => 0) (emptyFlash false)
      (booted ++ sampled ++ .main :: events)).state.lamps 0).calls = [.toggle] := by
  intro booted sampled events
  have hbooted : (runFrom id (fun _ => 0) (emptyFlash false) booted).code = .done :=
    Code.returned_iff.mp (by decide +kernel)
  have hbefore : (runFrom id (fun _ => 0) (emptyFlash false) (booted ++ sampled)).state.lamps 0 =
      ⟨.off, 0, []⟩ := by
    decide +kernel
  have hassigned : ((runFrom id (fun _ => 0) (emptyFlash false)
      (booted ++ sampled ++ .main :: [.irq true])).state.lamps 0).calls = [] := by
    decide +kernel
  have hkept : ∀ k ≤ 102, ((runFrom id (fun _ => 0) (emptyFlash false)
      (booted ++ sampled ++ .main :: events.take k)).state.lamps 0).currentMode =
        .blinkFast := by
    decide +kernel
  have hrunning : (match (runFrom id (fun _ => 0) (emptyFlash false)
      (booted ++ sampled ++ .main :: events)).code with | .halt => true | _ => false) = false := by
    decide +kernel
  have hcount : handlerRuns (List.replicate 100 (.irq true : Event Bool PassInput)) = 100 := by
    rw [handlerRuns, List.countP_replicate]
    rfl
  have hcalls := (lamp_shows_state hbooted).2 sampled .main [.irq true]
    (List.replicate 100 (.irq true)) .blinkFast
  simp only [hbefore, hassigned, hcount] at hcalls
  have hmode : ∀ done rest, events = done ++ rest → ((runFrom id (fun _ => 0) (emptyFlash false)
      (booted ++ sampled ++ .main :: done)).state.lamps 0).currentMode = .blinkFast := by
    intro done rest hsplit
    have htake : events.take done.length = done := by rw [hsplit, List.take_left]
    have hlength : done.length + rest.length = 102 := by
      rw [← List.length_append, ← hsplit]
      simp [events]
    exact htake ▸ hkept done.length (by omega)
  have hhalt : (runFrom id (fun _ => 0) (emptyFlash false)
      (booted ++ sampled ++ .main :: events)).code ≠ .halt := by
    intro hhalt
    rw [hhalt] at hrunning
    cases hrunning
  rw [hcalls (by decide) rfl hmode hhalt]
  rfl

end

end Firmware
end MDCMotorControl
