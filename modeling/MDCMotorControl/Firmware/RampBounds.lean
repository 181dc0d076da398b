import MDCMotorControl.Firmware.RunRequest
import MDCMotorControl.Motor.ProfileSoundness

/-!
# The ramp over whole runs

The main loop calculates a profile only for a motor that is stopped, so the
profile of a motion does not change under it.

Main results:

- Theorem `sound_profiles_iff`: in every state of every run, all profiles were
  sound and the frequency of a motor that is not stopped lies inside the ramp if
  and only if the first calculation since power-up asked for less than 200 RPM.
- Theorem `first_request_rejected`: a first request of 200 RPM starts the motor
  on a profile that is not sound.
-/

namespace MDCMotorControl
namespace Firmware

open Interruptible Motor Settings Modbus Panel FlashSector

/-- The history of profile requests obeys the rules of a pass. -/
theorem profile_rules : DriveRules id RampIff ProfileInv Prepared where
  stable := profileInv_tickIrq
  stable_prepared := prepared_tickIrq
  imp := fun _ h => h.rampIff
  imp_prepared := fun _ h => h.1.rampIff
  init := fun _ h _ => h.of_eq rfl rfl rfl rfl
  reset := fun _ h => h.of_eq rfl rfl rfl rfl
  prepare := profile_prepare
  start := profile_start
  stop := profile_stop

theorem profileInv_powerUp : ProfileInv .powerUp where
  mechanics := initialShaft_mechanics
  idle := fun _ => ⟨rfl, rfl⟩
  current := fun _ hne => absurd rfl hne
  allSound := fun _ _ hc => nomatch hc
  inRamp := fun _ hnot => absurd rfl hnot
  unsound := fun hnot => absurd (fun _ hc => nomatch hc) hnot

/-- In every state of every run, in exact arithmetic: every profile calculated so
far had a positive start frequency below its target frequency and a positive
acceleration step, and the frequency of a motor that is not stopped is between
the two, if and only if the first profile calculation since power-up, if any,
asked for a speed below 200 RPM. -/
theorem sound_profiles_iff (crc : List (BitVec 32) → BitVec 32) (start : PowerUp)
    (schedule : List (Event Bool PassInput)) :
    let d := (runFrom id crc start schedule).state.drive
    AllSound (profileCalls d) ∧ (d.currentState ≠ .stopped → InRamp d) ↔
      FirstAccepted (profileCalls d) :=
  (runFrom_follows profile_rules profileInv_powerUp start schedule).1

/-- A first request of 200 RPM leaves the target at zero: the motor is started on
a profile whose target frequency lies below its start frequency. -/
theorem first_request_rejected :
    let d := (runFrom id (fun _ => 0) (emptyFlash false)
      (bootAndPasses [writes [(.motorRpm, 2000), (.motorCtrl, 1)]])).state.drive
    d.currentState = .accelerating ∧ d.shaft.startFreq = 500 ∧ d.shaft.targetFreq = 0 ∧
      d.shaft.accelStepPerMs < 0 ∧ d.shaft.targetFreq < d.currentFreq ∧
      profileCalls d = [(200, d.shaft)] := by
  decide +kernel

end Firmware
end MDCMotorControl
