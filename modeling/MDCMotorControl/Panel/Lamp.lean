import MDCMotorControl.Library.InterruptibleCode
import Mathlib.Data.Fintype.Basic
import Mathlib.Tactic.Common

/-!
# The lamps

`app_lamp.c` drives two lamps, each in one of four modes, from the 1 ms tick.

Main results:

- Theorem `appLampSetMode_same`: requesting the mode a lamp is in does nothing.
- Theorem `appLampSetMode_other`: a request leaves the other lamp alone.
- Theorem `exec_appLampSetModeCode`: the statements of a request, undisturbed.
-/

namespace MDCMotorControl
namespace Panel

/-- `LampMode_t`. -/
inductive LampMode where
  | off
  | on
  | blinkSlow
  | blinkFast
deriving DecidableEq, Repr

/-- `NUM_LAMPS`. -/
abbrev numLamps : ℕ := 2

/-- The calls into `hal_lamp.c` after its initialisation. -/
inductive LampCall where
  | setState (state : Bool)
  | toggle
deriving DecidableEq, Repr

/-- The statics of `app_lamp.c` for one lamp, and the record of the calls that drove
it, most recent call first. -/
structure Lamp where
  currentMode : LampMode
  timeCounter : ℕ
  calls : List LampCall
deriving DecidableEq

/-- The lamps of the board. -/
abbrev Lamps := Fin numLamps → Lamp

/-- The static initial values. -/
def initialLamps : Lamps := fun _ => ⟨.off, 0, []⟩

/-- `HAL_Lamp_SetState`. -/
def halLampSetState (state : Bool) (lamp : Lamp) : Lamp :=
  { lamp with calls := .setState state :: lamp.calls }

/-- `HAL_Lamp_Toggle`. -/
def halLampToggle (lamp : Lamp) : Lamp :=
  { lamp with calls := .toggle :: lamp.calls }

/-- `App_Lamp_Init`. -/
def appLampInit (lamps : Lamps) : Lamps := fun i =>
  { lamps i with currentMode := .off, timeCounter := 0 }

/-- A mode change of one lamp; the static modes drive the output at once. -/
def Lamp.changeMode (mode : LampMode) (lamp : Lamp) : Lamp :=
  let lamp := { lamp with currentMode := mode, timeCounter := 0 }
  match mode with
  | .off => halLampSetState false lamp
  | .on => halLampSetState true lamp
  | .blinkSlow => lamp
  | .blinkFast => lamp

/-- `App_Lamp_SetMode`.  An index out of range and the mode already set are
ignored. -/
def appLampSetMode (lampIndex : ℕ) (mode : LampMode) (lamps : Lamps) : Lamps := fun i =>
  if (i : ℕ) = lampIndex ∧ (lamps i).currentMode ≠ mode then (lamps i).changeMode mode
  else lamps i

/-- The interval of a blinking mode, in milliseconds. -/
def LampMode.blinkInterval : LampMode → Option ℕ
  | blinkSlow => some 500
  | blinkFast => some 100
  | off => none
  | on => none

/-- One millisecond of one lamp. -/
def Lamp.tick (lamp : Lamp) : Lamp :=
  match lamp.currentMode.blinkInterval with
  | none => lamp
  | some interval =>
      let lamp := { lamp with timeCounter := lamp.timeCounter + 1 }
      if interval ≤ lamp.timeCounter then halLampToggle { lamp with timeCounter := 0 } else lamp

/-- `App_Lamp_Tick_1ms`. -/
def appLampTick1ms (lamps : Lamps) : Lamps := fun i =>
  (lamps i).tick

/-- Requesting the mode a lamp is in does nothing. -/
theorem appLampSetMode_same {lamps : Lamps} {i : Fin numLamps} :
    appLampSetMode i (lamps i).currentMode lamps = lamps := by
  ext j
  by_cases hij : j = i
  · simp [appLampSetMode, hij]
  · simp [appLampSetMode, Fin.val_inj, hij]

/-- A request leaves the other lamp alone. -/
theorem appLampSetMode_other {lampIndex : ℕ} {mode : LampMode} {lamps : Lamps}
    {i : Fin numLamps} (h : (i : ℕ) ≠ lampIndex) :
    appLampSetMode lampIndex mode lamps i = lamps i := by
  simp [appLampSetMode, h]

/-! ## The statements of a request -/

open Interruptible

/-- Apply a statement to one lamp. -/
def onLamp (i : Fin numLamps) (f : Lamp → Lamp) (lamps : Lamps) : Lamps :=
  Function.update lamps i (f (lamps i))

/-- The end of a mode change: the static modes drive the output. -/
def applyStatic (i : Fin numLamps) : LampMode → Code Lamps
  | .off => .stmt (onLamp i (halLampSetState false))
  | .on => .stmt (onLamp i (halLampSetState true))
  | .blinkSlow => .done
  | .blinkFast => .done

/-- What is left of a mode change when the mode has been assigned. -/
def afterModeAssigned (i : Fin numLamps) (mode : LampMode) : Code Lamps :=
  (Code.stmt (onLamp i ({ · with timeCounter := 0 }))).seq (applyStatic i mode)

/-- The statements of a mode change. -/
def changeModeCode (i : Fin numLamps) (mode : LampMode) : Code Lamps :=
  (Code.stmt (onLamp i ({ · with currentMode := mode }))).seq (afterModeAssigned i mode)

/-- `App_Lamp_SetMode`, statement by statement. -/
def appLampSetModeCode (lampIndex : ℕ) (mode : LampMode) : Code Lamps :=
  if h : lampIndex < numLamps then
    .whenever (fun lamps => (lamps ⟨lampIndex, h⟩).currentMode ≠ mode)
      (changeModeCode ⟨lampIndex, h⟩ mode)
  else .done

@[simp] theorem onLamp_same (i : Fin numLamps) (f : Lamp → Lamp) (lamps : Lamps) :
    onLamp i f lamps i = f (lamps i) :=
  Function.update_self i _ lamps

theorem onLamp_other {i j : Fin numLamps} (h : j ≠ i) (f : Lamp → Lamp) (lamps : Lamps) :
    onLamp i f lamps j = lamps j :=
  Function.update_of_ne h _ lamps

theorem exec_changeModeCode (i : Fin numLamps) (mode : LampMode) (lamps : Lamps) :
    (changeModeCode i mode).exec lamps = onLamp i (Lamp.changeMode mode) lamps := by
  cases mode <;>
    simp [changeModeCode, afterModeAssigned, applyStatic, onLamp, Lamp.changeMode]

/-- Undisturbed, the statements have the effect of the whole. -/
theorem exec_appLampSetModeCode (lampIndex : ℕ) (mode : LampMode) (lamps : Lamps) :
    (appLampSetModeCode lampIndex mode).exec lamps = appLampSetMode lampIndex mode lamps := by
  funext i
  by_cases hindex : lampIndex < numLamps
  · rw [appLampSetModeCode, dif_pos hindex, Code.exec_whenever, exec_changeModeCode]
    by_cases hi : i = ⟨lampIndex, hindex⟩
    · subst hi
      by_cases hmode : (lamps ⟨lampIndex, hindex⟩).currentMode = mode <;>
        simp [appLampSetMode, hmode]
    · have hne : (i : ℕ) ≠ lampIndex := fun heq => hi (Fin.ext heq)
      rw [appLampSetMode_other hne]
      split
      · exact onLamp_other hi _ lamps
      · rfl
  · have hne : (i : ℕ) ≠ lampIndex := fun heq => hindex (heq ▸ i.isLt)
    rw [appLampSetModeCode, dif_neg hindex, appLampSetMode_other hne, Code.exec_done]

end Panel
end MDCMotorControl
