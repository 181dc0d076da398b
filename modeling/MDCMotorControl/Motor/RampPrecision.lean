import MDCMotorControl.Library.RoundedAccumulation
import MDCMotorControl.Motor.RampShape

/-!
# Whether a ramp ends in single precision

With every float operation rounded, a tick of the acceleration adds the step to a
much larger frequency.  Near the target a slow ramp adds less than half a unit of
the frequency, the sum is rounded back, and the motor accelerates forever.  Whether
that happens is decided by the requested speed, ramp time and microsteps.

Main results:

- Theorem `rampEnds_iff`: a ramp ends exactly when its step exceeds half the
  largest unit below its target.
- Theorem `ramp_ends_exactly`: the same in terms of the register values.
- Theorem `slowest_ramp_never_ends`: an accepted request whose first addition is
  lost.
-/

namespace MDCMotorControl
namespace Motor

open Interruptible

/-! ## Ramps in single precision -/

/-- After finitely many ticks the motor cruises, and every tick of the acceleration
raises the frequency. -/
def RampEnds (d : Drive) : Prop :=
  (∃ k, (ticks Binary32.round k d).currentState = .cruising) ∧
    ∀ k, (ticks Binary32.round k d).currentState = .accelerating →
      (ticks Binary32.round k d).currentFreq < (ticks Binary32.round (k + 1) d).currentFreq

/-- The first element of a sequence that reaches a bound it starts below. -/
theorem exists_first_reach {f : ℕ → ℚ} {bound : ℚ} (hzero : f 0 < bound)
    (hreach : ∃ i, bound ≤ f i) :
    ∃ n, bound ≤ f (n + 1) ∧ ∀ k < n + 1, f k < bound := by
  have hmin : ∀ k < Nat.find hreach, f k < bound :=
    fun k hk => not_le.mp (Nat.find_min hreach hk)
  have hspec := Nat.find_spec hreach
  cases hfind : Nat.find hreach with
  | zero =>
      rw [hfind] at hspec
      exact absurd hzero (not_lt.mpr hspec)
  | succ n =>
      rw [hfind] at hspec hmin
      exact ⟨n, hspec, hmin⟩

section Ends

variable {d : Drive} {n₀ : ℕ} {k₀ : ℤ}

/-- Frequencies that stay below the target keep the motor accelerating. -/
theorem accelerating_of_lt (hstate : d.currentState = .accelerating)
    (hlt : ∀ k, (Binary32.accumulate d.shaft.accelStepPerMs)^[k] d.currentFreq <
      d.shaft.targetFreq) (k : ℕ) :
    (ticks Binary32.round k d).currentState = .accelerating := by
  refine (ticks_up (f := fun k => (Binary32.accumulate d.shaft.accelStepPerMs)^[k]
    d.currentFreq) hstate rfl (fun j => ?_) k fun j _ => hlt (j + 1)).1
  exact Function.iterate_succ_apply' _ j _

/-- A ramp whose sums reach the target ends, if every sum below it makes progress. -/
theorem rampEnds_of_progress {f : ℕ → ℚ} (hstate : d.currentState = .accelerating)
    (hzero : d.currentFreq = f 0)
    (hsucc : ∀ k, f (k + 1) = Binary32.round (f k + d.shaft.accelStepPerMs))
    (hprogress : ∀ k, f k < d.shaft.targetFreq → f k < f (k + 1))
    (hbelow : f 0 < d.shaft.targetFreq) (hreach : ∃ i, d.shaft.targetFreq ≤ f i) :
    RampEnds d := by
  obtain ⟨n, hle, hlt⟩ := exists_first_reach hbelow hreach
  have hcruise : ∀ {k}, n < k → (ticks Binary32.round k d).currentState = .cruising ∧
      (ticks Binary32.round k d).currentFreq = d.shaft.targetFreq ∧ _ :=
    ticks_reach hstate hzero hsucc (fun j hj => hlt (j + 1) (by omega)) hle
  refine ⟨⟨n + 1, (hcruise (Nat.lt_succ_self n)).1⟩, fun k hacc => ?_⟩
  have hk : k ≤ n := by
    by_contra hgt
    rw [(hcruise (not_le.mp hgt)).1] at hacc
    exact absurd hacc (by decide)
  have hup : ∀ k ≤ n, (ticks Binary32.round k d).currentFreq = f k :=
    fun k hk => (ticks_up hstate hzero hsucc k fun j hj => hlt (j + 1) (by omega)).2
  rw [hup k hk]
  rcases Nat.lt_or_eq_of_le hk with hkn | rfl
  · -- the next sum is below the target as well
    rw [hup (k + 1) hkn]
    exact hprogress k (hlt k (by omega))
  · rw [(hcruise (Nat.lt_succ_self k)).2.1]
    exact hlt k (Nat.lt_succ_self k)

/-- A ramp ends exactly when its step exceeds half the largest unit below its
target. -/
theorem rampEnds_iff (hstate : d.currentState = .accelerating)
    (hfreq : d.currentFreq = n₀ * 2 ^ k₀) (hnormal : Binary32.IsNormal n₀ k₀)
    (hroom : (n₀ : ℚ) * 2 ^ k₀ + 2 ^ k₀ < d.shaft.targetFreq)
    (hstep : 0 ≤ d.shaft.accelStepPerMs) :
    RampEnds d ↔ Binary32.Fine d.shaft.targetFreq d.shaft.accelStepPerMs := by
  have hreaches := Binary32.accumulate_reaches_iff hnormal hstep hroom
  rw [← hfreq] at hreaches
  constructor
  · rintro ⟨⟨k, hcruise⟩, _⟩
    rw [← hreaches]
    by_contra hnever
    rw [not_exists] at hnever
    have hlt := accelerating_of_lt hstate (fun i => not_le.mp (hnever i)) k
    rw [hcruise] at hlt
    exact absurd hlt (by decide)
  · intro hfine
    refine rampEnds_of_progress hstate rfl (fun k => Function.iterate_succ_apply' _ k _)
      (fun k hlt => ?_) ?_ (hreaches.mpr hfine)
    · obtain ⟨m, l, hm, heq⟩ := Binary32.iterate_accumulate_isNormal hnormal hfine.pos.le k
      rw [← hfreq] at heq
      rw [heq] at hlt
      rw [Function.iterate_succ_apply', heq]
      exact hfine.lt_accumulate hm hlt
    · show d.currentFreq < _
      rw [hfreq]
      linarith [Binary32.unit_pos k₀]

end Ends

/-! ## The values that the registers ask for -/

/-- The speed of a value of the speed register. -/
def requestedSpeed (rpm : BitVec 16) : ℚ :=
  if rpm.toNat ≤ 20 then Binary32.round (2 + Binary32.round (1 / 10))
  else Binary32.round (rpm.toNat / 10)

/-- The step frequency of a speed. -/
def requestedFreq (speed : ℚ) (microsteps : BitVec 16) : ℚ :=
  Binary32.round
    (Binary32.round (Binary32.round (speed * 3) / 60) * microsteps.toNat)

/-- The ramp time in milliseconds of a value of the acceleration register. -/
def requestedMs (accel : BitVec 16) : ℚ :=
  Binary32.round
    (clampAccelTimeSec Binary32.round (Binary32.round (accel.toNat / 10)) * 1000)

/-- In every millisecond of the ramp time, the ramp gains more than half a unit of
the numbers just below the target frequency. -/
def RampFine (rpm accel microsteps : BitVec 16) : Prop :=
  ∃ n : ℤ, requestedFreq (requestedSpeed rpm) microsteps ≤ 2 ^ n ∧
    2 ^ n * (2 ^ 24 + 1) * requestedMs accel <
      2 ^ 49 * Binary32.round
        (requestedFreq (requestedSpeed rpm) microsteps - requestedFreq 2 microsteps)

/-- Numbers of at least a billionth are above the subnormal ones. -/
theorem minNormal_le_of_le {q : ℚ} (h : 1 / 1000000000 ≤ q) : Binary32.minNormal ≤ q := by
  have hmin : Binary32.minNormal ≤ 1 / 1000000000 := by norm_num [Binary32.minNormal]
  exact hmin.trans h

section Registers

variable {rpm accel microsteps : BitVec 16} {shaft : ShaftProfile}

/-- The speed that is asked for lies between 2.1 and 200 revolutions a minute, up to
rounding. -/
theorem requestedSpeed_bounds (hrpm : rpm.toNat < 2000) :
    2099 / 1000 ≤ requestedSpeed rpm ∧ requestedSpeed rpm ≤ 19991 / 100 := by
  unfold requestedSpeed
  split
  · have htenth := Binary32.round_bounds (q := 1 / 10) (minNormal_le_of_le (by norm_num))
    have hsum := Binary32.round_bounds (q := 2 + Binary32.round (1 / 10))
      (minNormal_le_of_le (by linarith))
    constructor <;> linarith
  · rename_i hlow
    have hmin : (21 : ℚ) ≤ rpm.toNat := by exact_mod_cast (by omega : 21 ≤ rpm.toNat)
    have hmax : (rpm.toNat : ℚ) ≤ 1999 := by exact_mod_cast (by omega : rpm.toNat ≤ 1999)
    have hrounded := Binary32.round_bounds (q := rpm.toNat / 10)
      (minNormal_le_of_le (by linarith))
    constructor <;> linarith

/-- The clamped speed of a register value. -/
theorem clampTargetRPM_register (hmin : shaft.minStartRPM = 2) :
    clampTargetRPM Binary32.round shaft (Binary32.round (rpm.toNat / 10)) =
      requestedSpeed rpm := by
  rw [clampTargetRPM, requestedSpeed, hmin]
  by_cases hlow : rpm.toNat ≤ 20
  · rw [if_pos hlow, if_pos]
    rcases Nat.eq_zero_or_pos rpm.toNat with hzero | hpos
    · rw [hzero, Nat.cast_zero, zero_div, Binary32.round_zero]
      norm_num
    · have hone : (1 : ℚ) ≤ rpm.toNat := by exact_mod_cast hpos
      have hmax : (rpm.toNat : ℚ) ≤ 20 := by exact_mod_cast hlow
      have htwo : Binary32.round 2 = 2 := by
        simpa using Binary32.round_two_pow (p := 1) (by decide)
      rw [← htwo]
      exact Binary32.round_mono (minNormal_le_of_le (by linarith)) (by linarith)
  · have hmin : (21 : ℚ) ≤ rpm.toNat := by exact_mod_cast (by omega : 21 ≤ rpm.toNat)
    have hrounded := Binary32.round_bounds (q := rpm.toNat / 10)
      (minNormal_le_of_le (by linarith))
    rw [if_neg hlow, if_neg]
    linarith

/-- The ramp of the profile that accepted settings lead to. -/
theorem calculateProfile_register (hrpm : rpm.toNat < 2000)
    (hmicrosteps : 800 ≤ microsteps.toNat) (hmechanics : shaft.Mechanics) :
    let new := calculateProfile Binary32.round (Binary32.round (rpm.toNat / 10))
      (Binary32.round (accel.toNat / 10)) microsteps shaft
    new.startFreq = requestedFreq 2 microsteps ∧
      new.targetFreq = requestedFreq (requestedSpeed rpm) microsteps ∧
      new.accelStepPerMs = Binary32.round
        (Binary32.round (new.targetFreq - new.startFreq) / requestedMs accel) := by
  obtain ⟨hlow, hhigh⟩ := requestedSpeed_bounds hrpm
  have haccepted : 0 < requestedSpeed rpm ∧ requestedSpeed rpm < 200 :=
    ⟨by linarith, by linarith⟩
  have hclamp : clampTargetRPM Binary32.round { shaft with microsteps := microsteps }
      (Binary32.round (rpm.toNat / 10)) = requestedSpeed rpm :=
    clampTargetRPM_register hmechanics.minStartRPM
  have hbase : (shaft.setMicrosteps microsteps).setTargetRPM Binary32.round
      (Binary32.round (rpm.toNat / 10)) =
        { shaft with microsteps := microsteps, targetRPM := requestedSpeed rpm } := by
    simp only [ShaftProfile.setMicrosteps, if_pos hmicrosteps, ShaftProfile.setTargetRPM, hclamp,
      if_pos haccepted]
  intro new
  have hnew : new = ShaftProfile.setRamp Binary32.round (Binary32.round (accel.toNat / 10))
      { shaft with microsteps := microsteps, targetRPM := requestedSpeed rpm } := by
    rw [← hbase]
    rfl
  refine ⟨?_, ?_, ?_⟩
  · rw [hnew, requestedFreq, ← hmechanics.gearRatio, ← hmechanics.minStartRPM]
    rfl
  · rw [hnew, requestedFreq, ← hmechanics.gearRatio]
    rfl
  · rw [hnew]
    rfl

/-- A frequency is as precise as one rounding of a speed in revolutions. -/
theorem requestedFreq_bounds {speed low high : ℚ} (hmicrosteps : 800 ≤ microsteps.toNat)
    (hlow : low ≤ Binary32.round (Binary32.round (speed * 3) / 60))
    (hhigh : Binary32.round (Binary32.round (speed * 3) / 60) ≤ high) (hpos : 1 / 1000 ≤ low) :
    low * microsteps.toNat * (1 - 1 / 2 ^ 24) ≤ requestedFreq speed microsteps ∧
      requestedFreq speed microsteps ≤ high * microsteps.toNat * (1 + 1 / 2 ^ 24) := by
  set rps := Binary32.round (Binary32.round (speed * 3) / 60) with hrps
  have hm : (800 : ℚ) ≤ microsteps.toNat := by exact_mod_cast hmicrosteps
  have hlowm : low * microsteps.toNat ≤ rps * microsteps.toNat :=
    mul_le_mul_of_nonneg_right hlow (by linarith)
  have hhighm : rps * microsteps.toNat ≤ high * microsteps.toNat :=
    mul_le_mul_of_nonneg_right hhigh (by linarith)
  have hsmall : (1 : ℚ) / 1000 * 800 ≤ low * microsteps.toNat :=
    mul_le_mul hpos hm (by norm_num) (by linarith)
  have hrounded := Binary32.round_bounds (q := rps * microsteps.toNat)
    (minNormal_le_of_le (by linarith))
  rw [requestedFreq, ← hrps]
  constructor <;> linarith

/-- The target in revolutions of the motor shaft a second. -/
theorem requestedSpeed_rps (hrpm : rpm.toNat < 2000) :
    1049 / 10000 ≤ Binary32.round (Binary32.round (requestedSpeed rpm * 3) / 60) := by
  have hlow := (requestedSpeed_bounds hrpm).1
  have hgear := Binary32.round_bounds (q := requestedSpeed rpm * 3)
    (minNormal_le_of_le (by linarith))
  have hrps := Binary32.round_bounds (q := Binary32.round (requestedSpeed rpm * 3) / 60)
    (minNormal_le_of_le (by linarith))
  linarith

/-- Start and target frequency are far enough apart for one unit of the start. -/
theorem requestedFreq_room (hrpm : rpm.toNat < 2000) (hmicrosteps : 800 ≤ microsteps.toNat) :
    ∃ n k, Binary32.IsNormal n k ∧ requestedFreq 2 microsteps = n * 2 ^ k ∧
      (n : ℚ) * 2 ^ k + 2 ^ k < requestedFreq (requestedSpeed rpm) microsteps ∧
      1 ≤ requestedFreq (requestedSpeed rpm) microsteps - requestedFreq 2 microsteps := by
  have hm : (800 : ℚ) ≤ microsteps.toNat := by exact_mod_cast hmicrosteps
  -- revolutions of the motor shaft a second at the minimum speed
  have hstart : (1 : ℚ) / 1000 ≤ Binary32.round (Binary32.round (2 * 3) / 60) ∧
      Binary32.round (Binary32.round (2 * 3) / 60) ≤ 1001 / 10000 := by
    have hgear := Binary32.round_bounds (q := 2 * 3) (minNormal_le_of_le (by norm_num))
    have hrps := Binary32.round_bounds (q := Binary32.round (2 * 3) / 60)
      (minNormal_le_of_le (by linarith))
    constructor <;> linarith
  have hS := (requestedFreq_bounds hmicrosteps hstart.1 hstart.2 le_rfl).2
  have hT := (requestedFreq_bounds hmicrosteps (requestedSpeed_rps hrpm) le_rfl (by norm_num)).1
  have hsmall : (1 : ℚ) / 1000 * 800 ≤
      Binary32.round (Binary32.round (2 * 3) / 60) * microsteps.toNat :=
    mul_le_mul hstart.1 hm (by norm_num) (by linarith [hstart.1])
  obtain ⟨n, k, hnormal, heq⟩ := Binary32.round_isNormal
    (q := Binary32.round (Binary32.round (2 * 3) / 60) * microsteps.toNat)
    (minNormal_le_of_le (by linarith))
  have hvalue : requestedFreq 2 microsteps = n * 2 ^ k := heq
  have hunit : 2 ^ k * 2 ^ 23 ≤ requestedFreq 2 microsteps := by
    have hlead : (2 : ℚ) ^ 23 ≤ n := by exact_mod_cast hnormal.le
    rw [hvalue, mul_comm]
    exact mul_le_mul_of_nonneg_right hlead (Binary32.unit_pos k).le
  refine ⟨n, k, hnormal, hvalue, ?_, by linarith⟩
  rw [← hvalue]
  linarith

/-- The ramp time lies between half a millisecond and ten thousand seconds. -/
theorem requestedMs_bounds (accel : BitVec 16) :
    1 / 2 ≤ requestedMs accel ∧ requestedMs accel ≤ 10000000 := by
  have hleast := Binary32.round_bounds (q := 1 / 1000) (minNormal_le_of_le (by norm_num))
  have hclamp : 1 / 1001 ≤ clampAccelTimeSec Binary32.round (Binary32.round (accel.toNat / 10)) ∧
      clampAccelTimeSec Binary32.round (Binary32.round (accel.toNat / 10)) ≤ 6554 := by
    rw [clampAccelTimeSec]
    split
    · constructor <;> linarith
    · rename_i habove
      rcases Nat.eq_zero_or_pos accel.toNat with hzero | hpos
      · rw [hzero, Nat.cast_zero, zero_div, Binary32.round_zero] at habove
        linarith
      · have hone : (1 : ℚ) ≤ accel.toNat := by exact_mod_cast hpos
        have hmax : (accel.toNat : ℚ) ≤ 65535 := by
          exact_mod_cast (by omega : accel.toNat ≤ 65535)
        have hrounded := Binary32.round_bounds (q := accel.toNat / 10)
          (minNormal_le_of_le (by linarith))
        constructor <;> linarith
  rw [requestedMs]
  set sec := clampAccelTimeSec Binary32.round (Binary32.round (accel.toNat / 10))
  have hms := Binary32.round_bounds (q := sec * 1000) (minNormal_le_of_le (by linarith))
  constructor <;> linarith

/-- When a rounded quotient exceeds half the unit of the numbers below a power of two. -/
theorem two_pow_lt_round_div_iff {n : ℤ} {gain ms : ℚ} (hn : 0 < n) (hms : 0 < ms)
    (hnormal : Binary32.minNormal ≤ gain / ms) :
    2 ^ n < 2 ^ 25 * Binary32.round (gain / ms) ↔ 2 ^ n * (2 ^ 24 + 1) * ms < 2 ^ 49 * gain := by
  have hiff := Binary32.two_pow_lt_round_iff (p := n - 25) (by omega) hnormal
  have hpow : (2 : ℚ) ^ n = 2 ^ 25 * 2 ^ (n - 25) := by
    have hsum : ((25 : ℕ) : ℤ) + (n - 25) = n := by omega
    rw [Binary32.two_pow_mul_unit, hsum]
  have hpow' : (2 : ℚ) ^ (n - 25) = 2 ^ 24 * 2 ^ (n - 25 - 24) := by
    have hsum : ((24 : ℕ) : ℤ) + (n - 25 - 24) = n - 25 := by omega
    rw [Binary32.two_pow_mul_unit, hsum]
  have hsplit : 2 ^ n * (2 ^ 24 + 1) * ms =
      2 ^ 49 * ((2 ^ (n - 25) + 2 ^ (n - 25 - 24)) * ms) := by
    rw [hpow, hpow']
    ring
  rw [hsplit, hpow, mul_lt_mul_iff_right₀ (by norm_num), mul_lt_mul_iff_right₀ (by norm_num),
    ← lt_div_iff₀ hms]
  exact hiff

/-- The step exceeds half the largest unit below the target exactly when the gain in
a millisecond does. -/
theorem fine_iff_rampFine (hrpm : rpm.toNat < 2000) (hmicrosteps : 800 ≤ microsteps.toNat) :
    Binary32.Fine (requestedFreq (requestedSpeed rpm) microsteps)
      (Binary32.round (Binary32.round (requestedFreq (requestedSpeed rpm) microsteps -
        requestedFreq 2 microsteps) / requestedMs accel)) ↔ RampFine rpm accel microsteps := by
  obtain ⟨hms, hms'⟩ := requestedMs_bounds accel
  obtain ⟨_, _, hnormal, hstart, _, hgap⟩ := requestedFreq_room hrpm hmicrosteps
  have hpos : (0 : ℚ) < requestedMs accel := by linarith
  have hstartpos : 0 < requestedFreq 2 microsteps := by
    rw [hstart]
    exact Binary32.minNormal_pos.trans_le hnormal.minNormal_le
  set T := requestedFreq (requestedSpeed rpm) microsteps with hT
  set gain := Binary32.round (T - requestedFreq 2 microsteps) with hgain
  have hone : 1 ≤ gain := by
    have hround : Binary32.round 1 = 1 := by
      simpa using Binary32.round_two_pow (p := 0) (by decide)
    rw [← hround]
    exact Binary32.round_mono (minNormal_le_of_le (by norm_num)) hgap
  have hquotient : Binary32.minNormal ≤ gain / requestedMs accel := by
    apply minNormal_le_of_le
    rw [le_div_iff₀ hpos]
    linarith
  have hbound : ∀ n : ℤ, T ≤ 2 ^ n →
      (2 ^ n < 2 ^ 25 * Binary32.round (gain / requestedMs accel) ↔
        2 ^ n * (2 ^ 24 + 1) * requestedMs accel < 2 ^ 49 * gain) := by
    intro n hn
    have hexp : 0 < n := by
      by_contra hle
      have hpow : (2 : ℚ) ^ n ≤ 2 ^ (0 : ℤ) := zpow_le_zpow_right₀ (by norm_num) (by omega)
      rw [zpow_zero] at hpow
      linarith
    exact two_pow_lt_round_div_iff hexp hpos hquotient
  constructor
  · rintro ⟨n, hn, hlt⟩
    exact ⟨n, hn, (hbound n hn).mp hlt⟩
  · rintro ⟨n, hn, hlt⟩
    exact ⟨n, hn, (hbound n hn).mpr hlt⟩

end Registers

/-- A start with accepted settings ends its acceleration, and every tick of it makes
progress, exactly when the requested ramp is fine enough. -/
theorem ramp_ends_exactly (rpm accel microsteps : BitVec 16) (direction : BitVec 8) {d : Drive}
    (hrpm : rpm.toNat < 2000) (hmicrosteps : 800 ≤ microsteps.toNat)
    (hidle : d.currentState = .stopped ∨ d.currentState = .decelerating)
    (hmechanics : d.shaft.Mechanics) :
    RampEnds (launch Binary32.round (Binary32.round (rpm.toNat / 10))
      (Binary32.round (accel.toNat / 10)) microsteps direction d) ↔
      RampFine rpm accel microsteps := by
  set started := launch Binary32.round (Binary32.round (rpm.toNat / 10))
    (Binary32.round (accel.toNat / 10)) microsteps direction d with hstarted
  have hlaunched : Launched _ started := launch_launched Binary32.round
    (Binary32.round (rpm.toNat / 10)) (Binary32.round (accel.toNat / 10)) microsteps direction
    hidle
  obtain ⟨hstart, htarget, hstep⟩ :=
    @calculateProfile_register rpm accel microsteps d.shaft hrpm hmicrosteps hmechanics
  rw [htarget, hstart] at hstep
  rw [← hlaunched.shaft_eq] at hstart htarget hstep
  obtain ⟨n, k, hnormal, hvalue, hroom, hgap⟩ := requestedFreq_room hrpm hmicrosteps
  rw [← fine_iff_rampFine hrpm hmicrosteps, ← hstep, ← htarget]
  apply rampEnds_iff hlaunched.state _ hnormal
  · rwa [htarget]
  · have hms := (requestedMs_bounds accel).1
    rw [hstep]
    apply Binary32.round_nonneg
    exact div_nonneg (Binary32.round_nonneg (by linarith)) (by linarith)
  · rw [hlaunched.freq, ← hlaunched.shaft_eq, hstart, hvalue]

/-- Ten revolutions a minute within half a second: the ramp ends. -/
theorem ramp_ends_exactly_half_second :
    RampEnds (launch Binary32.round (Binary32.round ((100 : BitVec 16).toNat / 10))
      (Binary32.round ((5 : BitVec 16).toNat / 10)) 5000 0 Drive.powerUp) :=
  (ramp_ends_exactly 100 5 5000 0 (d := Drive.powerUp) (by decide) (by decide) (.inl rfl)
    initialShaft_mechanics).mpr ⟨12, by decide +kernel, by decide +kernel⟩

/-- The slowest ramp to 2.1 revolutions a minute at 800 microsteps: the first addition
is lost, and with it every other. -/
theorem slowest_ramp_stays :
    ∀ k, (ticks Binary32.round k (launch Binary32.round
      (Binary32.round ((21 : BitVec 16).toNat / 10))
      (Binary32.round ((65535 : BitVec 16).toNat / 10)) 800 0 Drive.powerUp)).currentState =
        .accelerating := by
  intro k
  have hlaunched := launch_launched Binary32.round (Binary32.round ((21 : BitVec 16).toNat / 10))
    (Binary32.round ((65535 : BitVec 16).toNat / 10)) 800 0 (d := Drive.powerUp) (.inl rfl)
  generalize launch Binary32.round (Binary32.round ((21 : BitVec 16).toNat / 10))
    (Binary32.round ((65535 : BitVec 16).toNat / 10)) 800 0 Drive.powerUp = d at hlaunched
  have hshaft := hlaunched.shaft_eq
  generalize hprofile : calculateProfile Binary32.round
    (Binary32.round ((21 : BitVec 16).toNat / 10))
    (Binary32.round ((65535 : BitVec 16).toNat / 10)) 800 Drive.powerUp.shaft = shaft
    at hlaunched hshaft
  have hlost : Binary32.round (shaft.startFreq + shaft.accelStepPerMs) = shaft.startFreq := by
    rw [← hprofile]
    decide +kernel
  have hbelow : shaft.startFreq < shaft.targetFreq := by
    rw [← hprofile]
    decide +kernel
  rw [← hshaft] at hlost hbelow
  refine (ticks_up (f := fun _ => d.shaft.startFreq) hlaunched.state ?_ (fun _ => hlost.symm) k
    fun _ _ => hbelow).1
  rw [hlaunched.freq, ← hshaft]

/-- It never reaches its target. -/
theorem slowest_ramp_never_ends :
    ¬ RampEnds (launch Binary32.round (Binary32.round ((21 : BitVec 16).toNat / 10))
      (Binary32.round ((65535 : BitVec 16).toNat / 10)) 800 0 Drive.powerUp) := by
  rintro ⟨⟨k, hcruising⟩, _⟩
  rw [slowest_ramp_stays k] at hcruising
  cases hcruising

end Motor
end MDCMotorControl
