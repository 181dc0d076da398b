import MDCMotorControl.Motor.RampShape
import Mathlib.Data.Nat.Cast.Order.Field

/-!
# The step rate that the timer puts out

The timer divides its clock by a whole number.  The frequency of the ramp is cut to
a whole number of hertz, the division is cut to a whole number of clock periods,
and the reload register holds one less.  The rate put out lies between the whole
frequency and the bound that the cut of the division allows, and it is monotone in
the frequency.

Main results:

- Theorem `reload_add_one`: the period is the whole part of clock over frequency.
- Theorems `pulseRate_bounds` and `pulseRate_mono`: rate against frequency.
- Theorem `step_rate`: the rate in a cruise, the range of every conversion, and the
  rates of an acceleration.
-/

namespace MDCMotorControl
namespace Motor

open Interruptible

/-! ## Reload value and rate -/

/-- The reload value that `HAL_Motor_SetFrequency` computes. -/
def reload (freqHz : ℕ) : ℕ :=
  truncToNat (tim2BaseFreqHz / freqHz - 1)

/-- The rate of the pulses with the reload value of a frequency. -/
def pulseRate (freqHz : ℕ) : ℚ :=
  tim2BaseFreqHz / (reload freqHz + 1)

/-- The rate of the pulses that the timer puts out. -/
def Drive.outputRate (d : Drive) : ℚ :=
  tim2BaseFreqHz / (d.arr + 1)

section Reload

variable {n : ℕ}

/-- The period is the whole part of clock over frequency. -/
theorem reload_add_one (hn : 0 < n) (hle : n ≤ 84000000) : reload n + 1 = 84000000 / n := by
  have hnpos : (0 : ℚ) < n := by exact_mod_cast hn
  have hone : 1 ≤ 84000000 / n := (Nat.one_le_div_iff hn).mpr hle
  have hlow : n * (84000000 / n) ≤ 84000000 := Nat.mul_div_le _ _
  have hhigh : 84000000 < n * (84000000 / n + 1) := Nat.lt_mul_div_succ _ hn
  obtain ⟨p, hp⟩ : ∃ p, 84000000 / n = p + 1 := ⟨84000000 / n - 1, by omega⟩
  rw [hp] at hlow hhigh ⊢
  have hlowq : (n : ℚ) * (p + 1) ≤ 84000000 := by exact_mod_cast hlow
  have hhighq : (84000000 : ℚ) < n * (p + 1 + 1) := by exact_mod_cast hhigh
  have htrunc : truncToNat (tim2BaseFreqHz / n - 1) = p := by
    apply truncToNat_eq
    · rw [le_sub_iff_add_le, tim2BaseFreqHz, le_div_iff₀ hnpos]
      linarith
    · rw [sub_lt_iff_lt_add, tim2BaseFreqHz, div_lt_iff₀ hnpos]
      linarith
  rw [reload, htrunc]

/-- A higher frequency is put out at a higher rate. -/
theorem pulseRate_mono {m : ℕ} (hm : 0 < m) (h : m ≤ n) (hn : n ≤ 84000000) :
    pulseRate m ≤ pulseRate n := by
  have hperiod : reload n + 1 ≤ reload m + 1 := by
    rw [reload_add_one hm (h.trans hn), reload_add_one (hm.trans_le h) hn]
    exact Nat.div_le_div_left h hm
  have hcast : (reload n : ℚ) + 1 ≤ reload m + 1 := by exact_mod_cast hperiod
  have hpos : (0 : ℚ) < reload n + 1 := by positivity
  exact div_le_div_of_nonneg_left (by norm_num [tim2BaseFreqHz]) hpos hcast

/-- The rate exceeds the frequency by the rest of the division, spread over the period. -/
theorem pulseRate_eq (hn : 0 < n) (hle : n ≤ 84000000) :
    pulseRate n = n + ((84000000 % n : ℕ) : ℚ) / ((84000000 / n : ℕ) : ℚ) := by
  have hone : 1 ≤ 84000000 / n := (Nat.one_le_div_iff hn).mpr hle
  have hpos : ((84000000 / n : ℕ) : ℚ) ≠ 0 := by exact_mod_cast (by omega : 84000000 / n ≠ 0)
  have hperiod : (reload n : ℚ) + 1 = (84000000 / n : ℕ) := by
    exact_mod_cast reload_add_one hn hle
  have hclock : (84000000 : ℚ) = n * (84000000 / n : ℕ) + (84000000 % n : ℕ) := by
    exact_mod_cast (Nat.div_add_mod 84000000 n).symm
  rw [pulseRate, hperiod, tim2BaseFreqHz]
  nth_rewrite 1 [hclock]
  rw [add_div, mul_div_cancel_right₀ _ hpos]

/-- The rate put out for the whole part of a frequency. -/
theorem pulseRate_bounds {F : ℚ} (hn : 0 < n) (hle : n < 84000000) (hlow : n ≤ F)
    (hhigh : F < n + 1) :
    -1 < pulseRate n - F ∧ pulseRate n - F ≤ n ^ 2 / (84000000 - n) := by
  have hrate := pulseRate_eq hn hle.le
  have hclock : (84000000 : ℚ) = n * (84000000 / n : ℕ) + (84000000 % n : ℕ) := by
    exact_mod_cast (Nat.div_add_mod 84000000 n).symm
  have hone : 1 ≤ 84000000 / n := (Nat.one_le_div_iff hn).mpr hle.le
  have hpos : (0 : ℚ) < (84000000 / n : ℕ) := by exact_mod_cast hone
  have hrest : ((84000000 % n : ℕ) : ℚ) < n := by exact_mod_cast Nat.mod_lt 84000000 hn
  have hnonneg : (0 : ℚ) ≤ (84000000 % n : ℕ) := Nat.cast_nonneg _
  generalize ((84000000 / n : ℕ) : ℚ) = period at hrate hclock hpos
  generalize ((84000000 % n : ℕ) : ℚ) = rest at hrate hclock hrest hnonneg
  have hnpos : (0 : ℚ) < n := by exact_mod_cast hn
  have hgap : (0 : ℚ) < 84000000 - n := by
    have hlt : (n : ℚ) < 84000000 := by exact_mod_cast hle
    linarith
  have hspread : 0 ≤ rest / period := div_nonneg hnonneg hpos.le
  have hbound : rest / period ≤ n ^ 2 / (84000000 - n) := by
    rw [div_le_div_iff₀ hpos hgap]
    calc rest * (84000000 - n) ≤ rest * (n * period) :=
          mul_le_mul_of_nonneg_left (by linarith) hnonneg
      _ ≤ n * (n * period) := mul_le_mul_of_nonneg_right hrest.le (by positivity)
      _ = n ^ 2 * period := by ring
  rw [hrate]
  constructor <;> linarith

end Reload

/-! ## The timer follows the frequency -/

/-- The timer holds what the push of the current frequency has written. -/
structure Driven (d : Drive) : Prop where
  pushed : d.frequency = some (truncToNat d.currentFreq)
  arr : d.arr = reload (truncToNat d.currentFreq)
  ccr3 : d.ccr3 = (d.arr + 1) / 2

/-- A push of the current frequency. -/
theorem halMotorSetFrequency_driven (context : Context) {d : Drive} {n : ℕ}
    (hn : n = truncToNat d.currentFreq) (hpos : 0 < n) :
    Driven (halMotorSetFrequency context n d) := by
  subst hn
  refine ⟨?_, ?_, ?_⟩
  · simp
  · rw [halMotorSetFrequency_currentFreq]
    simp [halMotorSetFrequency, hpos.ne', reload]
  · simp [halMotorSetFrequency, hpos.ne']

theorem Driven.outputRate {d : Drive} (h : Driven d) :
    d.outputRate = pulseRate (truncToNat d.currentFreq) := by
  rw [Drive.outputRate, h.arr, pulseRate]

/-- A start pushes the start frequency. -/
theorem launch_driven (fl : ℚ → ℚ) (targetRPM accelTimeSec : ℚ) (microsteps : BitVec 16)
    (direction : BitVec 8) {d : Drive}
    (h : d.currentState = .stopped ∨ d.currentState = .decelerating)
    (hpos : 0 < truncToNat
      (calculateProfile fl targetRPM accelTimeSec microsteps d.shaft).startFreq) :
    Driven (launch fl targetRPM accelTimeSec microsteps direction d) := by
  have hne := hpos.ne'
  rw [launch, appMotorCalculateProfile_exec, appMotorStart_exec direction (by exact h)]
  constructor <;>
    simp [startBody, Drive.log, Drive.onShaft, halMotorSetDirection, halMotorEnable,
      halMotorStartTimer, halMotorSetFrequency, hne, reload]

/-- Every tick that leaves the motor moving pushes the frequency it leads to. -/
theorem tick_driven {fl : ℚ → ℚ} {d : Drive} (h : Driven d) (hmoving : Moving d)
    (hpos : 0 < truncToNat (appMotorKinematicTick1ms fl d).currentFreq) :
    Driven (appMotorKinematicTick1ms fl d) := by
  have hcase := appMotorKinematicTick1ms_cases fl d
  generalize appMotorKinematicTick1ms fl d = d' at hcase hpos
  cases hcase with
  | idle => exact h
  | up hstate =>
      rw [halMotorSetFrequency_currentFreq] at hpos
      exact halMotorSetFrequency_driven .tick rfl hpos
  | reach hstate =>
      rw [halMotorSetFrequency_currentFreq] at hpos
      exact halMotorSetFrequency_driven .tick rfl hpos
  | down hstate => simp [Moving, hstate] at hmoving
  | halt hstate => simp [Moving, hstate] at hmoving

/-- The frequencies of a ramp lie between start and target. -/
theorem AtFoot.rampFreq_mem {d : Drive} {ms : ℕ} (h : AtFoot ms d) (k : ℕ) :
    d.shaft.startFreq ≤ d.rampFreq (min k ms) ∧
      d.rampFreq (min k ms) ≤ d.shaft.targetFreq := by
  have hpos := h.sound.accelStep_pos
  have hle : ((min k ms : ℕ) : ℚ) ≤ ms := by exact_mod_cast min_le_right k ms
  constructor
  · have hmul : 0 ≤ ((min k ms : ℕ) : ℚ) * d.shaft.accelStepPerMs := by positivity
    unfold Drive.rampFreq
    linarith
  · have hmul := mul_le_mul_of_nonneg_right hle hpos.le
    rw [← h.rampFreq_ms]
    unfold Drive.rampFreq
    linarith

/-- After every tick of a ramp the timer follows the frequency. -/
theorem AtFoot.driven {d : Drive} {ms : ℕ} (h : AtFoot ms d) (hdriven : Driven d)
    (hone : 1 ≤ d.shaft.startFreq) (k : ℕ) : Driven (ticks id k d) := by
  induction k with
  | zero => exact hdriven
  | succ k ih =>
      rw [ticks_succ]
      apply tick_driven ih (h.moving k).1
      rw [← ticks_succ, (h.moving (k + 1)).2]
      apply le_truncToNat
      push_cast
      exact hone.trans (h.rampFreq_mem (k + 1)).1

/-! ## Settings of more than the minimum speed -/

/-- The conversions of a push stay inside `uint32_t`: of the frequency, and of the
reload value of its whole part. -/
def ConversionsInRange (q : ℚ) : Prop :=
  (0 ≤ q ∧ q < 2 ^ 32) ∧
    0 ≤ tim2BaseFreqHz / truncToNat q - 1 ∧ tim2BaseFreqHz / truncToNat q - 1 < 2 ^ 32

theorem conversionsInRange {q : ℚ} (hone : 1 ≤ q) (hle : q ≤ 84000000) :
    ConversionsInRange q := by
  have hnat : 1 ≤ truncToNat q := le_truncToNat (by exact_mod_cast hone)
  have hn : (1 : ℚ) ≤ truncToNat q := by exact_mod_cast hnat
  have hpos : (0 : ℚ) < truncToNat q := by linarith
  have htrunc := truncToNat_le (zero_le_one.trans hone)
  have hlow : 1 ≤ tim2BaseFreqHz / truncToNat q := by
    rw [le_div_iff₀ hpos, tim2BaseFreqHz]
    linarith
  have hhigh : tim2BaseFreqHz / truncToNat q ≤ tim2BaseFreqHz :=
    div_le_self (by norm_num [tim2BaseFreqHz]) hn
  have hclock : tim2BaseFreqHz < 2 ^ 32 := by norm_num [tim2BaseFreqHz]
  exact ⟨⟨by linarith, by linarith⟩, by linarith, by linarith⟩

section Settings

variable {shaft : ShaftProfile} (targetRPM accelTimeSec : ℚ) (microsteps : BitVec 16)

/-- The microsteps of a calculated profile. -/
theorem calculateProfile_microsteps (fl : ℚ → ℚ) :
    (calculateProfile fl targetRPM accelTimeSec microsteps shaft).microsteps =
      (shaft.setMicrosteps microsteps).microsteps := by
  simp only [calculateProfile, ShaftProfile.setRamp, ShaftProfile.setStartFreq,
    ShaftProfile.setTargetFreq, ShaftProfile.setAccelStep, ShaftProfile.setTargetRPM]
  split <;> rfl

theorem calculateProfile_startFreq (h : shaft.Mechanics) :
    (calculateProfile id targetRPM accelTimeSec microsteps shaft).startFreq =
      (calculateProfile id targetRPM accelTimeSec microsteps shaft).microsteps.toNat / 10 := by
  have hmechanics := calculateProfile_mechanics targetRPM accelTimeSec microsteps h
  have hfreq : (calculateProfile id targetRPM accelTimeSec microsteps shaft).startFreq =
      (calculateProfile id targetRPM accelTimeSec microsteps shaft).freqOf id
        (calculateProfile id targetRPM accelTimeSec microsteps shaft).minStartRPM := rfl
  rw [hfreq, freqOf_id hmechanics, hmechanics.minStartRPM]
  ring

theorem calculateProfile_targetFreq (h : shaft.Mechanics) (hlow : 2 < targetRPM)
    (hhigh : targetRPM < 200) :
    (calculateProfile id targetRPM accelTimeSec microsteps shaft).targetFreq =
      targetRPM * (calculateProfile id targetRPM accelTimeSec microsteps
        shaft).microsteps.toNat / 20 := by
  have hmechanics := calculateProfile_mechanics targetRPM accelTimeSec microsteps h
  have hrpm := calculateProfile_targetRPM targetRPM accelTimeSec microsteps h
  rw [if_pos hhigh, if_neg (not_le.mpr hlow)] at hrpm
  have hfreq : (calculateProfile id targetRPM accelTimeSec microsteps shaft).targetFreq =
      (calculateProfile id targetRPM accelTimeSec microsteps shaft).freqOf id
        (calculateProfile id targetRPM accelTimeSec microsteps shaft).targetRPM := rfl
  rw [hfreq, freqOf_id hmechanics, hrpm]

end Settings

/-- Rates and conversions on a ramp whose frequencies the timer can put out. -/
theorem AtFoot.rates {d : Drive} {ms : ℕ} (h : AtFoot ms d) (hdriven : Driven d)
    (hone : 1 ≤ d.shaft.startFreq) (hclock : d.shaft.targetFreq ≤ 84000000) (k : ℕ) :
    ConversionsInRange (ticks id k d).currentFreq ∧
      (ticks id k d).outputRate ≤ (ticks id (k + 1) d).outputRate := by
  obtain ⟨hlow, hhigh⟩ := h.rampFreq_mem k
  obtain ⟨hlow', hhigh'⟩ := h.rampFreq_mem (k + 1)
  have hnonneg : 0 ≤ d.rampFreq (min (k + 1) ms) := by linarith
  constructor
  · rw [(h.moving k).2]
    exact conversionsInRange (hone.trans hlow) (hhigh.trans hclock)
  · rw [(h.driven hdriven hone k).outputRate, (h.driven hdriven hone (k + 1)).outputRate,
      (h.moving k).2, (h.moving (k + 1)).2]
    apply pulseRate_mono
    · exact le_truncToNat (by push_cast; exact hone.trans hlow)
    · apply truncToNat_mono (by linarith)
      have hle : ((min k ms : ℕ) : ℚ) ≤ ((min (k + 1) ms : ℕ) : ℚ) := by
        exact_mod_cast min_le_min_right ms (by omega)
      have hmul := mul_le_mul_of_nonneg_right hle h.sound.accelStep_pos.le
      unfold Drive.rampFreq
      linarith
    · have htrunc := truncToNat_le hnonneg
      have hle : (truncToNat (d.rampFreq (min (k + 1) ms)) : ℚ) ≤ 84000000 := by linarith
      exact_mod_cast hle

/-- The rate of a cruise at `F`, whose whole part is `f`. -/
structure CruiseRate (F : ℚ) (f : ℕ) (d : Drive) : Prop where
  freq : d.currentFreq = F
  pushed : d.frequency = some f
  period : d.arr + 1 = ⌊(84000000 : ℚ) / f⌋
  above : -1 < d.outputRate - F
  below : d.outputRate - F ≤ f ^ 2 / (84000000 - f)
  ccr3_pos : 0 < d.ccr3
  ccr3_le : (d.ccr3 : ℚ) ≤ (d.arr + 1) / 2

theorem Driven.cruiseRate {d : Drive} (h : Driven d) (hone : 1 ≤ d.currentFreq)
    (hhigh : d.currentFreq < 1000000) :
    CruiseRate d.currentFreq (truncToNat d.currentFreq) d := by
  set f := truncToNat d.currentFreq with hf
  have hle : (f : ℚ) ≤ d.currentFreq := truncToNat_le (by linarith)
  have hpos : 1 ≤ f := le_truncToNat (by exact_mod_cast hone)
  have hlt : f < 1000000 := by
    have hcast : (f : ℚ) < 1000000 := by linarith
    exact_mod_cast hcast
  have hperiod := reload_add_one (n := f) (by omega) (by omega)
  obtain ⟨hbelow, habove⟩ := pulseRate_bounds (n := f) (by omega) (by omega) hle
    (lt_truncToNat_add_one d.currentFreq)
  have hrate : d.outputRate = pulseRate f := h.outputRate
  rw [← hrate] at hbelow habove
  have harr : d.arr = reload f := h.arr
  refine ⟨rfl, h.pushed, ?_, hbelow, habove, ?_, ?_⟩
  · have hfloor : ⌊(84000000 : ℚ) / f⌋ = ((84000000 / f : ℕ) : ℤ) := by
      exact_mod_cast Rat.floor_natCast_div_natCast 84000000 f
    rw [hfloor, ← hperiod, harr]
    push_cast
    rfl
  · have hlong : 2 ≤ 84000000 / f := by
      rw [Nat.le_div_iff_mul_le (by omega)]
      omega
    rw [h.ccr3, harr, hperiod]
    omega
  · rw [h.ccr3]
    exact_mod_cast Nat.cast_div_le

/-- The frequencies that accepted settings above the minimum speed ask for. -/
theorem requestedRate_bounds {rpm microsteps : BitVec 16} (hlow : 20 < rpm.toNat)
    (hrpm : rpm.toNat < 2000) (hmicrosteps : 800 ≤ microsteps.toNat) :
    (84 : ℚ) ≤ rpm.toNat * microsteps.toNat / 200 ∧
      (rpm.toNat : ℚ) * microsteps.toNat / 200 < 1000000 := by
  have hrange := microsteps.isLt
  have hmin : 21 * 800 ≤ rpm.toNat * microsteps.toNat := Nat.mul_le_mul hlow hmicrosteps
  have hmax : rpm.toNat * microsteps.toNat ≤ 2000 * 65536 := Nat.mul_le_mul (by omega) (by omega)
  have hminq : (21 : ℚ) * 800 ≤ rpm.toNat * microsteps.toNat := by exact_mod_cast hmin
  have hmaxq : (rpm.toNat : ℚ) * microsteps.toNat ≤ 2000 * 65536 := by exact_mod_cast hmax
  constructor <;> linarith

/-- The frequencies of a ramp that starts with such settings. -/
theorem launch_frequencies (rpm accel microsteps : BitVec 16) (direction : BitVec 8) {d : Drive}
    (hlow : 20 < rpm.toNat) (hrpm : rpm.toNat < 2000)
    (hidle : d.currentState = .stopped ∨ d.currentState = .decelerating)
    (hmechanics : d.shaft.Mechanics) :
    let started := launch id (rpm.toNat / 10) (accel.toNat / 10) microsteps direction d
    started.shaft.startFreq = (d.shaft.setMicrosteps microsteps).microsteps.toNat / 10 ∧
      started.shaft.targetFreq =
        rpm.toNat * (d.shaft.setMicrosteps microsteps).microsteps.toNat / 200 := by
  intro started
  have hlaunched := launch_launched id (rpm.toNat / 10) (accel.toNat / 10) microsteps direction
    hidle
  have hrpmlow : (21 : ℚ) ≤ rpm.toNat := by exact_mod_cast hlow
  constructor
  · rw [hlaunched.shaft_eq, calculateProfile_startFreq _ _ _ hmechanics,
      calculateProfile_microsteps]
  · rw [hlaunched.shaft_eq, calculateProfile_targetFreq _ _ _ hmechanics (by linarith)
      (register_lt hrpm), calculateProfile_microsteps]
    ring

/-- With a requested speed above the minimum and at least 800 effective microsteps,
let `F` be the requested frequency and `f` its whole part.  Cruising, the timer
divides its clock by the whole part of clock over `f`, the rate put out is within
the bound of `F`, and the compare value is positive and at most half the period.
On the whole way no conversion leaves its range and the rate never falls, as a
higher frequency is put out at a higher rate. -/
theorem step_rate (rpm accel microsteps : BitVec 16) (direction : BitVec 8) {d : Drive}
    (hlow : 20 < rpm.toNat) (hrpm : rpm.toNat < 2000)
    (hidle : d.currentState = .stopped ∨ d.currentState = .decelerating)
    (hmechanics : d.shaft.Mechanics)
    (heffective : 800 ≤ (d.shaft.setMicrosteps microsteps).microsteps.toNat) :
    let started := launch id (rpm.toNat / 10) (accel.toNat / 10) microsteps direction d
    let F : ℚ := rpm.toNat * (d.shaft.setMicrosteps microsteps).microsteps.toNat / 200
    (∀ k, rampMs accel ≤ k → CruiseRate F (truncToNat F) (ticks id k started)) ∧
    (∀ k, ConversionsInRange (ticks id k started).currentFreq) ∧
    (∀ m n, 0 < m → m ≤ n → n ≤ 84000000 → pulseRate m ≤ pulseRate n) ∧
    ∀ k, (ticks id k started).outputRate ≤ (ticks id (k + 1) started).outputRate := by
  intro started F
  have hlaunched := launch_launched id (rpm.toNat / 10) (accel.toNat / 10) microsteps direction
    hidle
  have hfoot : AtFoot (rampMs accel) started :=
    launch_atFoot rpm accel microsteps direction hrpm hidle hmechanics
  obtain ⟨hFlow, hFhigh⟩ : 84 ≤ F ∧ F < 1000000 := requestedRate_bounds hlow hrpm heffective
  have hm : (800 : ℚ) ≤ (d.shaft.setMicrosteps microsteps).microsteps.toNat := by
    exact_mod_cast heffective
  obtain ⟨hstart, htarget⟩ : _ ∧ started.shaft.targetFreq = F :=
    launch_frequencies rpm accel microsteps direction hlow hrpm hidle hmechanics
  have hone : 1 ≤ started.shaft.startFreq := by
    rw [hstart]
    linarith
  have hclock : started.shaft.targetFreq ≤ 84000000 := by
    rw [htarget]
    linarith
  have hdriven : Driven started := by
    apply launch_driven id _ _ _ _ hidle
    apply le_truncToNat
    rw [← hlaunched.shaft_eq]
    push_cast
    exact hone
  refine ⟨fun k hk => ?_, fun k => (hfoot.rates hdriven hone hclock k).1,
    fun m n hmpos hmn hn => pulseRate_mono hmpos hmn hn,
    fun k => (hfoot.rates hdriven hone hclock k).2⟩
  have hfreq : (ticks id k started).currentFreq = F := (hfoot.cruising hk).2.1.trans htarget
  rw [← hfreq]
  apply (hfoot.driven hdriven hone k).cruiseRate
  · rw [hfreq]
    linarith
  · rw [hfreq]
    exact hFhigh

/-- Ten revolutions a minute at 5000 microsteps within half a second. -/
theorem step_rate_ten_rpm :
    CruiseRate 2500 2500 (ticks id 500 (launch id 10 (1 / 2) 5000 0 Drive.powerUp)) := by
  have hrpm : (((100 : BitVec 16).toNat : ℕ) : ℚ) / 10 = 10 := by decide +kernel
  have haccel : (((5 : BitVec 16).toNat : ℕ) : ℚ) / 10 = 1 / 2 := by decide +kernel
  have hfreq : (((100 : BitVec 16).toNat : ℕ) : ℚ) * ((Drive.powerUp.shaft.setMicrosteps
      5000).microsteps.toNat : ℕ) / 200 = 2500 := by decide +kernel
  have htrunc : truncToNat 2500 = 2500 := by decide +kernel
  have hrate := (step_rate 100 5 5000 0 (d := Drive.powerUp) (by decide) (by decide) (.inl rfl)
    initialShaft_mechanics (by decide)).1 500 (by decide)
  rwa [hrpm, haccel, hfreq, htrunc] at hrate

end Motor
end MDCMotorControl
