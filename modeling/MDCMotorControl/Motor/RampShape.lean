import MDCMotorControl.Motor.RampTicks
import MDCMotorControl.Motor.ProfileSoundness

/-!
# The shape of a ramp in exact arithmetic

A start with accepted settings climbs from the start frequency to the target in
equal steps, in as many ticks as the ramp time has milliseconds, and a stop after
any number of ticks goes back down the same steps.  A stop before the first tick
takes one tick, because the tick that sees the motor decelerating also ends it.

Main results:

- Theorem `accepted_step`: the step is the frequency to gain over the ramp time.
- Theorem `ramp_shape`: the frequency after any number of ticks, with a stop after
  any number of them.
-/

namespace MDCMotorControl
namespace Motor

open Interruptible

/-! ## The profile of accepted settings -/

/-- The ramp time in milliseconds of a value of the acceleration register. -/
def rampMs (accel : BitVec 16) : ℕ :=
  max 1 (100 * accel.toNat)

theorem rampMs_pos (accel : BitVec 16) : 0 < rampMs accel :=
  lt_of_lt_of_le Nat.one_pos (le_max_left _ _)

/-- The clamped ramp time; no register value but zero is clamped. -/
theorem clampAccelTimeSec_register (accel : BitVec 16) :
    clampAccelTimeSec id (accel.toNat / 10) * 1000 = rampMs accel := by
  rcases Nat.eq_zero_or_pos accel.toNat with hzero | hpos
  · have hms : rampMs accel = 1 := by simp [rampMs, hzero]
    rw [hms, hzero, clampAccelTimeSec]
    norm_num
  · have hms : rampMs accel = 100 * accel.toNat := max_eq_right (by omega)
    have hone : (1 : ℚ) ≤ accel.toNat := by exact_mod_cast hpos
    rw [hms, clampAccelTimeSec, if_neg]
    · push_cast
      ring
    · simp only [id_eq, not_le]
      linarith

section Accepted

variable {shaft : ShaftProfile} {rpm accel microsteps : BitVec 16}

/-- A register value below 2000 asks for less than 200 RPM. -/
theorem register_lt (hrpm : rpm.toNat < 2000) : (rpm.toNat : ℚ) / 10 < 200 := by
  have hlt : (rpm.toNat : ℚ) < 2000 := by exact_mod_cast hrpm
  linarith

/-- An accepted profile is sound. -/
theorem accepted_sound (hrpm : rpm.toNat < 2000) (hmechanics : shaft.Mechanics) :
    (calculateProfile id (rpm.toNat / 10) (accel.toNat / 10) microsteps shaft).Sound := by
  apply (calculateProfile_sound_iff _ _ _ hmechanics).mpr
  exact two_lt_targetRPM _ _ _ hmechanics (.inl (register_lt hrpm))

/-- The steps of the ramp time add up to the frequency to gain. -/
theorem accepted_step (rpm accel microsteps : BitVec 16) (shaft : ShaftProfile) :
    (calculateProfile id (rpm.toNat / 10) (accel.toNat / 10) microsteps shaft).startFreq +
        rampMs accel * (calculateProfile id (rpm.toNat / 10) (accel.toNat / 10) microsteps
          shaft).accelStepPerMs =
      (calculateProfile id (rpm.toNat / 10) (accel.toNat / 10) microsteps shaft).targetFreq := by
  have hms : (0 : ℚ) < rampMs accel := by exact_mod_cast rampMs_pos accel
  set new := calculateProfile id (rpm.toNat / 10) (accel.toNat / 10) microsteps shaft with hnew
  have hstep : new.accelStepPerMs = (new.targetFreq - new.startFreq) / rampMs accel := by
    rw [← clampAccelTimeSec_register]
    rfl
  rw [hstep, mul_div_cancel₀ _ hms.ne']
  ring

end Accepted

/-! ## Up and down -/

section Shape

variable {d : Drive} {ms : ℕ}

/-- A sound ramp of `ms` steps, at its foot. -/
structure AtFoot (ms : ℕ) (d : Drive) : Prop where
  sound : d.shaft.Sound
  state : d.currentState = .accelerating
  freq : d.currentFreq = d.shaft.startFreq
  steps_pos : 0 < ms
  steps : d.shaft.startFreq + ms * d.shaft.accelStepPerMs = d.shaft.targetFreq

/-- The frequency `k` steps up the ramp. -/
def Drive.rampFreq (d : Drive) (k : ℕ) : ℚ :=
  d.shaft.startFreq + k * d.shaft.accelStepPerMs

theorem Drive.rampFreq_succ (d : Drive) (k : ℕ) :
    d.rampFreq (k + 1) = id (d.rampFreq k + d.shaft.accelStepPerMs) := by
  simp only [Drive.rampFreq, id_eq]
  push_cast
  ring

theorem AtFoot.rampFreq_lt (h : AtFoot ms d) {j k : ℕ} (hjk : j < k) :
    d.rampFreq j < d.rampFreq k := by
  have hcast : (j : ℚ) < k := by exact_mod_cast hjk
  have hmul := mul_lt_mul_of_pos_right hcast h.sound.accelStep_pos
  unfold Drive.rampFreq
  linarith

theorem AtFoot.rampFreq_ms (h : AtFoot ms d) : d.rampFreq ms = d.shaft.targetFreq :=
  h.steps

theorem AtFoot.freq_eq (h : AtFoot ms d) : d.currentFreq = d.rampFreq 0 := by
  rw [h.freq, Drive.rampFreq]
  simp

/-- Before the last step of the ramp the motor is accelerating. -/
theorem AtFoot.accelerating (h : AtFoot ms d) {k : ℕ} (hk : k < ms) :
    (ticks id k d).currentState = .accelerating ∧
      (ticks id k d).currentFreq = d.rampFreq k := by
  apply ticks_up h.state h.freq_eq d.rampFreq_succ
  intro j hj
  rw [← h.rampFreq_ms]
  exact h.rampFreq_lt (by omega)

/-- From the last step on it is cruising at the target. -/
theorem AtFoot.cruising (h : AtFoot ms d) {k : ℕ} (hk : ms ≤ k) :
    (ticks id k d).currentState = .cruising ∧
      (ticks id k d).currentFreq = d.shaft.targetFreq ∧
      (ticks id k d).frequency =
        some (truncToNat d.shaft.targetFreq) := by
  have hpos := h.steps_pos
  obtain ⟨n, rfl⟩ : ∃ n, ms = n + 1 := ⟨ms - 1, by omega⟩
  apply ticks_reach h.state h.freq_eq d.rampFreq_succ (n := n) _ h.rampFreq_ms.ge hk
  intro j hj
  rw [← h.rampFreq_ms]
  exact h.rampFreq_lt (by omega)

/-- After any number of ticks the motor is moving, that many steps up the ramp. -/
theorem AtFoot.moving (h : AtFoot ms d) (k : ℕ) :
    Moving (ticks id k d) ∧
      (ticks id k d).currentFreq = d.rampFreq (min k ms) := by
  rcases lt_or_ge k ms with hlt | hge
  · obtain ⟨hstate, hfreq⟩ := h.accelerating hlt
    exact ⟨.inl hstate, by rw [hfreq, min_eq_left hlt.le]⟩
  · obtain ⟨hstate, hfreq, _⟩ := h.cruising hge
    exact ⟨.inr hstate, by rw [hfreq, min_eq_right hge, h.rampFreq_ms]⟩

/-- A stop of a moving motor only changes the state. -/
theorem appMotorStop_exec {d : Drive} (h : Moving d) :
    appMotorStop.exec d = { d with currentState := .decelerating } := by
  rw [appMotorStop, Code.exec_branch]
  rcases h with h | h
  · simp [h]
  · simp [h, Code.exec_whenever]

/-- `i` steps up the ramp, a stop takes `i` ticks, and at least one. -/
theorem AtFoot.stop (h : AtFoot ms d) {i : ℕ} {e : Drive} (hshaft : e.shaft = d.shaft)
    (hstate : e.currentState = .decelerating) (hfreq : e.currentFreq = d.rampFreq i) :
    (∀ j < max 1 i, (ticks id j e).currentState = .decelerating ∧
      d.shaft.startFreq ≤ (ticks id j e).currentFreq) ∧
    ∀ j, max 1 i ≤ j → (ticks id j e).currentState = .stopped ∧
      (ticks id j e).timerRunning = false ∧
      (ticks id j e).enPin = false := by
  have hpos := h.sound.accelStep_pos
  have hzero : e.currentFreq = d.rampFreq i - (0 : ℕ) * d.shaft.accelStepPerMs := by
    rw [hfreq]
    push_cast
    ring
  have hstep : ∀ k : ℕ, d.rampFreq i - ((k + 1 : ℕ) : ℚ) * d.shaft.accelStepPerMs =
      id (d.rampFreq i - k * d.shaft.accelStepPerMs - e.shaft.accelStepPerMs) := by
    intro k
    rw [hshaft]
    push_cast
    simp only [id_eq]
    ring
  -- `k` steps down from the `i`-th
  have hdown : ∀ k : ℕ, d.rampFreq i - k * d.shaft.accelStepPerMs =
      d.shaft.startFreq + ((i : ℚ) - k) * d.shaft.accelStepPerMs := by
    intro k
    unfold Drive.rampFreq
    ring
  have habove : ∀ k < max 1 i - 1, e.shaft.startFreq <
      d.rampFreq i - ((k + 1 : ℕ) : ℚ) * d.shaft.accelStepPerMs := by
    intro k hk
    have hlt : ((k + 1 : ℕ) : ℚ) < i := by exact_mod_cast (by omega : k + 1 < i)
    rw [hshaft, hdown]
    linarith [mul_pos (sub_pos.mpr hlt) hpos]
  have hbelow : d.rampFreq i - ((max 1 i - 1 + 1 : ℕ) : ℚ) * d.shaft.accelStepPerMs ≤
      e.shaft.startFreq := by
    have hle : (i : ℚ) ≤ ((max 1 i - 1 + 1 : ℕ) : ℚ) := by exact_mod_cast (by omega)
    rw [hshaft, hdown]
    linarith [mul_nonneg (sub_nonneg.mpr hle) hpos.le]
  constructor
  · intro j hj
    obtain ⟨hstate', hfreq'⟩ :=
      ticks_down (f := fun k => d.rampFreq i - k * d.shaft.accelStepPerMs) hstate hzero hstep j
        fun k hk => habove k (by omega)
    refine ⟨hstate', ?_⟩
    have hle : (j : ℚ) ≤ i := by exact_mod_cast (by omega : j ≤ i)
    rw [hfreq', hdown]
    linarith [mul_nonneg (sub_nonneg.mpr hle) hpos.le]
  · intro j hj
    exact ticks_halt (f := fun k => d.rampFreq i - k * d.shaft.accelStepPerMs) hstate hzero
      hstep habove hbelow (by omega)

end Shape

/-! ## A start with register values -/

variable {d : Drive} (rpm accel microsteps : BitVec 16) (direction : BitVec 8)

/-- A start with accepted settings puts the motor at the foot of its ramp. -/
theorem launch_atFoot (hrpm : rpm.toNat < 2000)
    (hidle : d.currentState = .stopped ∨ d.currentState = .decelerating)
    (hmechanics : d.shaft.Mechanics) :
    AtFoot (rampMs accel)
      (launch id (rpm.toNat / 10) (accel.toNat / 10) microsteps direction d) := by
  have hlaunched := launch_launched id (rpm.toNat / 10) (accel.toNat / 10) microsteps direction
    hidle
  refine ⟨?_, hlaunched.state, ?_, rampMs_pos accel, ?_⟩
  · rw [hlaunched.shaft_eq]
    exact accepted_sound hrpm hmechanics
  · rw [hlaunched.freq, hlaunched.shaft_eq]
  · rw [hlaunched.shaft_eq]
    exact accepted_step rpm accel microsteps d.shaft

/-- For accepted settings: before the ramp time is over the motor has climbed one
step a tick; from then on it cruises at the target; and a stop after any number of
ticks stops it, with timer and driver off, after as many ticks as it had climbed
steps, or one, the frequency staying in the ramp until then. -/
theorem ramp_shape (hrpm : rpm.toNat < 2000)
    (hidle : d.currentState = .stopped ∨ d.currentState = .decelerating)
    (hmechanics : d.shaft.Mechanics) :
    let started := launch id (rpm.toNat / 10) (accel.toNat / 10) microsteps direction d
    (∀ k < rampMs accel, (ticks id k started).currentState = .accelerating ∧
      (ticks id k started).currentFreq =
        started.shaft.startFreq + k * started.shaft.accelStepPerMs) ∧
    (∀ k, rampMs accel ≤ k → (ticks id k started).currentState = .cruising ∧
      (ticks id k started).currentFreq = started.shaft.targetFreq) ∧
    ∀ k, let stopping := appMotorStop.exec (ticks id k started)
      (∀ j < max 1 (min k (rampMs accel)), (ticks id j stopping).currentState = .decelerating ∧
        started.shaft.startFreq ≤ (ticks id j stopping).currentFreq) ∧
      ∀ j, max 1 (min k (rampMs accel)) ≤ j → (ticks id j stopping).currentState = .stopped ∧
        (ticks id j stopping).timerRunning = false ∧ (ticks id j stopping).enPin = false := by
  intro started
  have hfoot : AtFoot (rampMs accel) started :=
    launch_atFoot rpm accel microsteps direction hrpm hidle hmechanics
  refine ⟨fun k hk => hfoot.accelerating hk, fun k hk => ?_, fun k => ?_⟩
  · obtain ⟨hstate, hfreq, _⟩ := hfoot.cruising hk
    exact ⟨hstate, hfreq⟩
  · obtain ⟨hmoving, hfreq⟩ := hfoot.moving k
    have hstop := appMotorStop_exec hmoving
    intro stopping
    apply hfoot.stop
    · show (appMotorStop.exec (ticks id k started)).shaft = started.shaft
      rw [hstop]
      exact ticks_shaft k
    · show (appMotorStop.exec (ticks id k started)).currentState = .decelerating
      rw [hstop]
    · show (appMotorStop.exec (ticks id k started)).currentFreq = _
      rw [hstop]
      exact hfreq

/-- Ten revolutions a minute within half a second: a stop after 200 ticks takes 200
ticks. -/
theorem ramp_shape_half_second :
    let started := launch id 10 (1 / 2) 5000 0 Drive.powerUp
    let stopping := appMotorStop.exec (ticks id 200 started)
    started.shaft.targetFreq = 2500 ∧
      (ticks id 499 started).currentState = .accelerating ∧
      (ticks id 500 started).currentState = .cruising ∧
      (ticks id 199 stopping).currentState = .decelerating ∧
      (ticks id 200 stopping).currentState = .stopped := by
  have hrpm : (((100 : BitVec 16).toNat : ℕ) : ℚ) / 10 = 10 := by decide +kernel
  have haccel : (((5 : BitVec 16).toNat : ℕ) : ℚ) / 10 = 1 / 2 := by decide +kernel
  have hshape := ramp_shape (d := Drive.powerUp) 100 5 5000 0 (by decide) (.inl rfl)
    initialShaft_mechanics
  rw [hrpm, haccel] at hshape
  obtain ⟨hup, hcruise, hstop⟩ := hshape
  refine ⟨by decide +kernel, (hup 499 (by decide)).1, (hcruise 500 (by decide)).1, ?_, ?_⟩
  · exact ((hstop 200).1 199 (by decide)).1
  · exact ((hstop 200).2 200 (by decide)).1

end Motor
end MDCMotorControl
