import Mathlib.Tactic.Common

/-!
# The debounced switch

`app_switch.c` samples a pin every millisecond and adopts a level that has been
the same for long enough.

Main results:

- Theorem `appSwitchTick1ms_cases`: everything one sample can do.
-/

namespace MDCMotorControl
namespace Panel

/-- `DEBOUNCE_TIME_MS`. -/
def debounceTimeMs : ℕ := 50

/-- The statics of `app_switch.c`. -/
structure Switch where
  switchStableState : Bool
  switchLastRawState : Bool
  debounceCounter : ℕ
deriving DecidableEq

/-- The static initial values. -/
def initialSwitch : Switch where
  switchStableState := false
  switchLastRawState := false
  debounceCounter := 0

/-- `HAL_Switch_GetRawState`: the switch connects the pin to ground. -/
def halSwitchGetRawState (pin : Bool) : Bool :=
  !pin

/-- `App_Switch_Init`.  The counter keeps what earlier samples left in it. -/
def appSwitchInit (pin : Bool) (sw : Switch) : Switch :=
  { sw with
    switchStableState := halSwitchGetRawState pin
    switchLastRawState := halSwitchGetRawState pin }

/-- `App_Switch_Tick_1ms`. -/
def appSwitchTick1ms (pin : Bool) (sw : Switch) : Switch :=
  let rawState := halSwitchGetRawState pin
  if rawState ≠ sw.switchLastRawState then
    { sw with debounceCounter := 0, switchLastRawState := rawState }
  else if sw.debounceCounter < debounceTimeMs then
    let sw := { sw with debounceCounter := sw.debounceCounter + 1 }
    if sw.debounceCounter = debounceTimeMs then { sw with switchStableState := rawState } else sw
  else sw

/-- `App_Switch_GetState`. -/
def appSwitchGetState (sw : Switch) : Bool :=
  sw.switchStableState

/-- Everything one sample can do: restart the counter, count, adopt the level
counted to the end, or nothing more once it is adopted. -/
inductive SampleCase (pin : Bool) (sw : Switch) : Switch → Prop where
  | changed (hraw : halSwitchGetRawState pin ≠ sw.switchLastRawState) :
      SampleCase pin sw
        { sw with debounceCounter := 0, switchLastRawState := halSwitchGetRawState pin }
  | counted (hraw : halSwitchGetRawState pin = sw.switchLastRawState)
      (hlt : sw.debounceCounter + 1 < debounceTimeMs) :
      SampleCase pin sw { sw with debounceCounter := sw.debounceCounter + 1 }
  | adopted (hraw : halSwitchGetRawState pin = sw.switchLastRawState)
      (heq : sw.debounceCounter + 1 = debounceTimeMs) :
      SampleCase pin sw
        { sw with
          debounceCounter := debounceTimeMs
          switchStableState := halSwitchGetRawState pin }
  | settled (hraw : halSwitchGetRawState pin = sw.switchLastRawState)
      (hle : debounceTimeMs ≤ sw.debounceCounter) : SampleCase pin sw sw

/-- Every sample is one of the four cases. -/
theorem appSwitchTick1ms_cases (pin : Bool) (sw : Switch) :
    SampleCase pin sw (appSwitchTick1ms pin sw) := by
  unfold appSwitchTick1ms
  by_cases hraw : halSwitchGetRawState pin = sw.switchLastRawState
  · simp only [hraw, ne_eq, not_true_eq_false, if_false]
    by_cases hlt : sw.debounceCounter < debounceTimeMs
    · simp only [if_pos hlt]
      by_cases heq : sw.debounceCounter + 1 = debounceTimeMs
      · simp only [if_pos heq]
        have hcase := SampleCase.adopted hraw heq
        rwa [hraw, ← heq] at hcase
      · simp only [if_neg heq]
        exact .counted hraw (by omega)
    · simp only [if_neg hlt]
      exact .settled hraw (Nat.not_lt.mp hlt)
  · simp only [ne_eq, hraw, not_false_eq_true, if_true]
    exact .changed hraw

end Panel
end MDCMotorControl
