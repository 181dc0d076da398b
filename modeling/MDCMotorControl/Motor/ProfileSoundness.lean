import MDCMotorControl.Motor.DriveCode
import Mathlib.Tactic.Linarith
import Mathlib.Tactic.Positivity
import Mathlib.Tactic.FieldSimp
import Mathlib.Tactic.Ring

/-!
# When a calculated profile is sound

In exact arithmetic a calculated profile is sound when its target speed exceeds
the minimum start speed.  A requested speed of 200 RPM or more is ignored and the
previous target kept; before the first accepted request that is zero.

The history of requests decides: if the first one is below 200 RPM, every profile
is sound and the frequency stays inside the ramp; otherwise the first profile is
unsound.

Main results:

- Theorem `calculateProfile_sound_iff`: soundness of a calculated profile.
- Theorem `profileInv_tickIrq`: ticks keep the frequency inside the ramp.
- Theorem `profile_prepare`: one profile calculation, statement by statement.
- Theorems `profile_start` and `profile_stop`: start and stop on such a drive.
-/

namespace MDCMotorControl
namespace Motor

open Interruptible

/-! ## One profile -/

/-- The fields of the profile that no code ever changes to something else: gear
ratio and minimum speed, and microsteps that are not zero. -/
structure ShaftProfile.Mechanics (shaft : ShaftProfile) : Prop where
  gearRatio : shaft.gearRatio = 3
  minStartRPM : shaft.minStartRPM = 2
  microsteps_pos : 0 < shaft.microsteps.toNat

theorem initialShaft_mechanics : initialShaft.Mechanics :=
  ⟨rfl, rfl, by decide⟩

section

variable {shaft : ShaftProfile} (targetRPM accelTimeSec : ℚ) (microsteps : BitVec 16)

theorem setMicrosteps_mechanics (h : shaft.Mechanics) :
    (shaft.setMicrosteps microsteps).Mechanics := by
  unfold ShaftProfile.setMicrosteps
  split
  · exact ⟨h.gearRatio, h.minStartRPM, by dsimp; omega⟩
  · exact h

theorem setTargetRPM_mechanics (h : shaft.Mechanics) :
    (shaft.setTargetRPM id targetRPM).Mechanics := by
  unfold ShaftProfile.setTargetRPM
  dsimp only
  split
  · exact ⟨h.gearRatio, h.minStartRPM, h.microsteps_pos⟩
  · exact h

theorem setRamp_mechanics (h : shaft.Mechanics) :
    (shaft.setRamp id accelTimeSec).Mechanics :=
  ⟨h.gearRatio, h.minStartRPM, h.microsteps_pos⟩

theorem calculateProfile_mechanics (h : shaft.Mechanics) :
    (calculateProfile id targetRPM accelTimeSec microsteps shaft).Mechanics := by
  apply setRamp_mechanics
  apply setTargetRPM_mechanics
  exact setMicrosteps_mechanics microsteps h

@[simp] theorem setMicrosteps_targetRPM :
    (shaft.setMicrosteps microsteps).targetRPM = shaft.targetRPM := by
  unfold ShaftProfile.setMicrosteps
  split <;> rfl

/-- The target speed of a calculated profile: the requested one, raised above the
minimum, or the previous one. -/
theorem calculateProfile_targetRPM (h : shaft.Mechanics) :
    (calculateProfile id targetRPM accelTimeSec microsteps shaft).targetRPM =
      if targetRPM < 200 then (if targetRPM ≤ 2 then 2 + 1 / 10 else targetRPM)
      else shaft.targetRPM := by
  have hmin := (setMicrosteps_mechanics microsteps h).minStartRPM
  rw [calculateProfile, ShaftProfile.setRamp_targetRPM]
  simp only [ShaftProfile.setTargetRPM, clampTargetRPM, hmin, id_eq]
  by_cases hlow : targetRPM ≤ 2
  · have hhigh : targetRPM < 200 := lt_of_le_of_lt hlow (by norm_num)
    have hrange : (0 : ℚ) < 2 + 1 / 10 ∧ (2 : ℚ) + 1 / 10 < 200 := by norm_num
    simp only [if_pos hlow, if_pos hhigh, if_pos hrange]
  · have hpos : 0 < targetRPM := by linarith
    by_cases hhigh : targetRPM < 200
    · simp only [if_neg hlow, if_pos hhigh, if_pos (And.intro hpos hhigh)]
    · have hnot : ¬ (0 < targetRPM ∧ targetRPM < 200) := fun h => hhigh h.2
      simp only [if_neg hlow, if_neg hhigh, if_neg hnot, setMicrosteps_targetRPM]

/-- A request below 200 RPM is met or raised above the minimum. -/
theorem two_lt_targetRPM (h : shaft.Mechanics)
    (hrequest : targetRPM < 200 ∨ 2 < shaft.targetRPM) :
    2 < (calculateProfile id targetRPM accelTimeSec microsteps shaft).targetRPM := by
  rw [calculateProfile_targetRPM targetRPM accelTimeSec microsteps h]
  by_cases hhigh : targetRPM < 200
  · rw [if_pos hhigh]
    split <;> linarith
  · rw [if_neg hhigh]
    exact hrequest.resolve_left hhigh

/-- The frequency of a speed in exact arithmetic. -/
theorem freqOf_id (h : shaft.Mechanics) (rpm : ℚ) :
    shaft.freqOf id rpm = rpm * shaft.microsteps.toNat / 20 := by
  simp only [ShaftProfile.freqOf, h.gearRatio, id_eq]
  ring

/-- A higher speed has a higher frequency. -/
theorem freqOf_lt_iff (h : shaft.Mechanics) {rpm rpm' : ℚ} :
    shaft.freqOf id rpm < shaft.freqOf id rpm' ↔ rpm < rpm' := by
  have hms : (0 : ℚ) < shaft.microsteps.toNat := by exact_mod_cast h.microsteps_pos
  rw [freqOf_id h, freqOf_id h, div_lt_div_iff_of_pos_right (by norm_num)]
  exact mul_lt_mul_iff_of_pos_right hms

theorem clampAccelTimeSec_pos : 0 < clampAccelTimeSec id accelTimeSec := by
  unfold clampAccelTimeSec
  simp only [id_eq]
  split
  · norm_num
  · linarith

/-- A ramp is sound exactly when the target speed exceeds the minimum. -/
theorem setRamp_sound_iff (h : shaft.Mechanics) :
    (shaft.setRamp id accelTimeSec).Sound ↔ 2 < shaft.targetRPM := by
  have hstart : (shaft.setRamp id accelTimeSec).startFreq = shaft.freqOf id 2 := by
    rw [← h.minStartRPM]
    rfl
  have htarget : (shaft.setRamp id accelTimeSec).targetFreq = shaft.freqOf id shaft.targetRPM :=
    rfl
  have hstep : (shaft.setRamp id accelTimeSec).accelStepPerMs =
      (shaft.freqOf id shaft.targetRPM - shaft.freqOf id 2) /
        (clampAccelTimeSec id accelTimeSec * 1000) := by
    rw [← h.minStartRPM]
    rfl
  constructor
  · intro hsound
    have hlt := hsound.startFreq_lt
    rw [hstart, htarget] at hlt
    exact (freqOf_lt_iff h).mp hlt
  · intro hlt
    have hfreq := (freqOf_lt_iff h).mpr hlt
    refine ⟨?_, ?_, ?_⟩
    · have hms : (0 : ℚ) < shaft.microsteps.toNat := by exact_mod_cast h.microsteps_pos
      rw [hstart, freqOf_id h]
      positivity
    · rw [hstart, htarget]
      exact hfreq
    · have htime := clampAccelTimeSec_pos accelTimeSec
      rw [hstep]
      exact div_pos (sub_pos.mpr hfreq) (by linarith)

/-- A calculated profile is sound exactly when its target speed exceeds the
minimum. -/
theorem calculateProfile_sound_iff (h : shaft.Mechanics) :
    (calculateProfile id targetRPM accelTimeSec microsteps shaft).Sound ↔
      2 < (calculateProfile id targetRPM accelTimeSec microsteps shaft).targetRPM := by
  rw [calculateProfile, ShaftProfile.setRamp_targetRPM]
  apply setRamp_sound_iff
  exact setTargetRPM_mechanics targetRPM (setMicrosteps_mechanics microsteps h)

end

/-! ## The history of requests -/

/-- The requested speed of a profile calculation. -/
def requestedRPM : DriveCall → Option ℚ
  | .profile targetRPM _ _ => some targetRPM
  | _ => none

/-- The profile calculations so far, with the requested speed and the resulting
profile, most recent first. -/
def profileCalls (d : Drive) : List (ℚ × ShaftProfile) :=
  d.trace.filterMap fun e => (requestedRPM e.call).map fun rpm => (rpm, e.shaft)

/-- The first calculation since power-up, if any, asked for less than 200 RPM. -/
def FirstAccepted (calls : List (ℚ × ShaftProfile)) : Prop :=
  ∀ c ∈ calls.getLast?, c.1 < 200

/-- Every profile so far was sound. -/
def AllSound (calls : List (ℚ × ShaftProfile)) : Prop :=
  ∀ c ∈ calls, c.2.Sound

/-- The frequency is inside the ramp. -/
def InRamp (d : Drive) : Prop :=
  d.shaft.startFreq ≤ d.currentFreq ∧ d.currentFreq ≤ d.shaft.targetFreq

theorem firstAccepted_cons {c : ℚ × ShaftProfile} {calls : List (ℚ × ShaftProfile)}
    (hne : calls ≠ []) : FirstAccepted (c :: calls) ↔ FirstAccepted calls := by
  obtain ⟨b, bs, rfl⟩ := List.exists_cons_of_ne_nil hne
  simp [FirstAccepted, List.getLast?_cons_cons]

theorem firstAccepted_singleton {c : ℚ × ShaftProfile} : FirstAccepted [c] ↔ c.1 < 200 := by
  simp [FirstAccepted]

/-- What the history of requests says about the drive. -/
structure ProfileInv (d : Drive) : Prop where
  mechanics : d.shaft.Mechanics
  idle : profileCalls d = [] → d.shaft.targetRPM = 0 ∧ d.currentState = .stopped
  current : FirstAccepted (profileCalls d) → profileCalls d ≠ [] →
    2 < d.shaft.targetRPM ∧ d.shaft.Sound
  allSound : FirstAccepted (profileCalls d) → AllSound (profileCalls d)
  inRamp : FirstAccepted (profileCalls d) → d.currentState ≠ .stopped → InRamp d
  unsound : ¬ FirstAccepted (profileCalls d) → ¬ AllSound (profileCalls d)

/-- In every state, the history is sound and the frequency inside the ramp if and
only if the first request was accepted. -/
def RampIff (d : Drive) : Prop :=
  AllSound (profileCalls d) ∧ (d.currentState ≠ .stopped → InRamp d) ↔
    FirstAccepted (profileCalls d)

theorem ProfileInv.rampIff {d : Drive} (h : ProfileInv d) : RampIff d := by
  constructor
  · intro hsound
    by_contra hnot
    exact h.unsound hnot hsound.1
  · exact fun hfirst => ⟨h.allSound hfirst, h.inRamp hfirst⟩

/-- The invariant reads the profile, the state, the frequency and the requests. -/
theorem ProfileInv.of_eq {d d' : Drive} (h : ProfileInv d) (hshaft : d'.shaft = d.shaft)
    (hstate : d'.currentState = d.currentState) (hfreq : d'.currentFreq = d.currentFreq)
    (hcalls : profileCalls d' = profileCalls d) : ProfileInv d' := by
  refine ⟨?_, ?_, ?_, ?_, ?_, ?_⟩
  · rw [hshaft]
    exact h.mechanics
  · rw [hcalls, hshaft, hstate]
    exact h.idle
  · rw [hcalls, hshaft]
    exact h.current
  · rw [hcalls]
    exact h.allSound
  · rw [hcalls, hstate, InRamp, hshaft, hfreq]
    exact h.inRamp
  · rw [hcalls]
    exact h.unsound

/-- A change of state and frequency keeps the invariant if it stays inside the
ramp of a sound profile. -/
theorem ProfileInv.move {d d' : Drive} (h : ProfileInv d) (hne : profileCalls d ≠ [])
    (hshaft : d'.shaft = d.shaft) (hcalls : profileCalls d' = profileCalls d)
    (hramp : d.shaft.Sound → FirstAccepted (profileCalls d) →
      d'.currentState ≠ .stopped → InRamp d') : ProfileInv d' := by
  refine ⟨?_, ?_, ?_, ?_, ?_, ?_⟩
  · rw [hshaft]
    exact h.mechanics
  · rw [hcalls]
    exact fun hnil => absurd hnil hne
  · rw [hcalls, hshaft]
    exact h.current
  · rw [hcalls]
    exact h.allSound
  · rw [hcalls]
    exact fun hfirst => hramp (h.current hfirst hne).2 hfirst
  · rw [hcalls]
    exact h.unsound

/-- A motor that is not stopped has had a profile calculated. -/
theorem ProfileInv.calls_ne {d : Drive} (h : ProfileInv d) (hstate : d.currentState ≠ .stopped) :
    profileCalls d ≠ [] :=
  fun hnil => hstate (h.idle hnil).2

/-! ## Ticks -/

/-- A tick that moves the frequency inside the ramp keeps the invariant. -/
theorem ProfileInv.push {d : Drive} (h : ProfileInv d) (hmoving : d.currentState ≠ .stopped)
    (freq : ℚ) (state : MotorState) (freqHz : Nat)
    (hramp : d.shaft.Sound → InRamp d →
      d.shaft.startFreq ≤ freq ∧ freq ≤ d.shaft.targetFreq) :
    ProfileInv (halMotorSetFrequency .tick freqHz
      { d with currentFreq := freq, currentState := state }) := by
  apply h.move (h.calls_ne hmoving)
  · rw [halMotorSetFrequency_shaft]
  · simp [profileCalls, requestedRPM]
  · intro hsound hfirst _
    rw [InRamp, halMotorSetFrequency_shaft, halMotorSetFrequency_currentFreq]
    exact hramp hsound (h.inRamp hfirst hmoving)

/-- Ticks keep the frequency inside the ramp. -/
theorem profileInv_tickIrq : Stable (tickIrq id) ProfileInv := by
  intro _ d h
  have hcase := appMotorKinematicTick1ms_cases id d
  show ProfileInv (appMotorKinematicTick1ms id d)
  generalize appMotorKinematicTick1ms id d = d' at hcase
  cases hcase with
  | idle => exact h
  | up hstate hlt =>
      apply h.push (by simp [hstate]) (d.raised id) d.currentState
      intro hsound hramp
      have hstep := hsound.accelStep_pos
      have hraised : d.raised id = d.currentFreq + d.shaft.accelStepPerMs := rfl
      constructor
      · linarith [hramp.1]
      · exact le_of_lt hlt
  | reach hstate hle =>
      apply h.push (by simp [hstate]) d.shaft.targetFreq .cruising
      intro hsound _
      exact ⟨le_of_lt hsound.startFreq_lt, le_refl _⟩
  | down hstate hlt =>
      apply h.push (by simp [hstate]) (d.lowered id) d.currentState
      intro hsound hramp
      have hstep := hsound.accelStep_pos
      have hlowered : d.lowered id = d.currentFreq - d.shaft.accelStepPerMs := rfl
      constructor
      · exact le_of_lt hlt
      · linarith [hramp.2]
  | halt hstate =>
      apply h.move (h.calls_ne (by simp [hstate]))
      · rfl
      · simp [profileCalls, requestedRPM, halMotorEnable, halMotorStopTimer, Drive.log]
      · intro _ _ hnot
        exact absurd rfl hnot

/-! ## The calls of the main context -/

/-- A profile has been calculated for a start. -/
def Prepared (d : Drive) : Prop :=
  ProfileInv d ∧ profileCalls d ≠ []

section Calculate

variable {d : Drive} (targetRPM accelTimeSec : ℚ) (microsteps : BitVec 16)

/-- If the first request was accepted, one more calculation gives a target speed
above the minimum. -/
theorem ProfileInv.two_lt_calculated (h : ProfileInv d) {c : ℚ × ShaftProfile}
    (hc : c.1 = targetRPM) (hfirst : FirstAccepted (c :: profileCalls d)) :
    2 < (calculateProfile id targetRPM accelTimeSec microsteps d.shaft).targetRPM := by
  apply two_lt_targetRPM targetRPM accelTimeSec microsteps h.mechanics
  by_cases hnil : profileCalls d = []
  · rw [hnil, firstAccepted_singleton, hc] at hfirst
    exact .inl hfirst
  · exact .inr (h.current ((firstAccepted_cons hnil).mp hfirst) hnil).1

/-- If the first request was rejected, its profile is not sound. -/
theorem ProfileInv.unsound_calculated (h : ProfileInv d) {c : ℚ × ShaftProfile}
    (hc : c = (targetRPM, calculateProfile id targetRPM accelTimeSec microsteps d.shaft))
    (hfirst : ¬ FirstAccepted (c :: profileCalls d)) : ¬ AllSound (c :: profileCalls d) := by
  intro hall
  by_cases hnil : profileCalls d = []
  · -- the target speed kept is the initial one
    have hsound : c.2.Sound := hall c List.mem_cons_self
    rw [hnil, firstAccepted_singleton] at hfirst
    subst hc
    have hkept := calculateProfile_targetRPM targetRPM accelTimeSec microsteps h.mechanics
    rw [if_neg hfirst, (h.idle hnil).1] at hkept
    have hlt :=
      (calculateProfile_sound_iff targetRPM accelTimeSec microsteps h.mechanics).mp hsound
    rw [hkept] at hlt
    linarith
  · have hrejected : ¬ FirstAccepted (profileCalls d) :=
      fun hold => hfirst ((firstAccepted_cons hnil).mpr hold)
    exact h.unsound hrejected fun c' hc' => hall c' (List.mem_cons_of_mem c hc')

/-- The invariant after one more calculation. -/
theorem ProfileInv.calculate (h : ProfileInv d) (hstopped : d.currentState = .stopped) :
    Prepared ((d.onShaft (calculateProfile id targetRPM accelTimeSec microsteps)).log .main
      (.profile targetRPM accelTimeSec microsteps)) := by
  have htwo := fun c => h.two_lt_calculated targetRPM accelTimeSec microsteps (c := c)
  have hunsound := fun c => h.unsound_calculated targetRPM accelTimeSec microsteps (c := c)
  have hsound := calculateProfile_sound_iff targetRPM accelTimeSec microsteps h.mechanics
  have hmechanics := calculateProfile_mechanics targetRPM accelTimeSec microsteps h.mechanics
  generalize hnew : calculateProfile id targetRPM accelTimeSec microsteps d.shaft = new
    at htwo hunsound hsound hmechanics
  have hcalls : profileCalls ((d.onShaft (calculateProfile id targetRPM accelTimeSec
      microsteps)).log .main (.profile targetRPM accelTimeSec microsteps)) =
      (targetRPM, new) :: profileCalls d := by
    rw [← hnew]
    rfl
  have hshaft : ((d.onShaft (calculateProfile id targetRPM accelTimeSec microsteps)).log .main
      (.profile targetRPM accelTimeSec microsteps)).shaft = new := hnew
  refine ⟨⟨?_, ?_, ?_, ?_, ?_, ?_⟩, ?_⟩
  · rwa [hshaft]
  · rw [hcalls]
    exact fun hnil => absurd hnil (List.cons_ne_nil _ _)
  · rw [hcalls, hshaft]
    exact fun hfirst _ => ⟨htwo _ rfl hfirst, hsound.mpr (htwo _ rfl hfirst)⟩
  · rw [hcalls]
    intro hfirst c hc
    rcases List.mem_cons.mp hc with rfl | hold
    · exact hsound.mpr (htwo _ rfl hfirst)
    · have hnil : profileCalls d ≠ [] := List.ne_nil_of_mem hold
      exact h.allSound ((firstAccepted_cons hnil).mp hfirst) c hold
  · exact fun _ hnot => absurd hstopped hnot
  · rw [hcalls]
    exact hunsound _ rfl
  · rw [hcalls]
    exact List.cons_ne_nil _ _

end Calculate

theorem prepared_tickIrq : Stable (tickIrq id) Prepared := by
  rintro i d ⟨h, hne⟩
  refine ⟨profileInv_tickIrq i d h, ?_⟩
  have hcase := appMotorKinematicTick1ms_cases id d
  show profileCalls (appMotorKinematicTick1ms id d) ≠ []
  generalize appMotorKinematicTick1ms id d = d' at hcase
  cases hcase with
  | idle => exact hne
  | up => simpa [profileCalls, requestedRPM] using hne
  | reach => simpa [profileCalls, requestedRPM] using hne
  | down => simpa [profileCalls, requestedRPM] using hne
  | halt =>
      simpa [profileCalls, requestedRPM, halMotorEnable, halMotorStopTimer, Drive.log] using hne

/-- A profile calculation for a stopped motor, statement by statement: the motor
stays as it is, so ticks in between change nothing. -/
theorem profile_prepare (targetRPM accelTimeSec : ℚ) (microsteps : BitVec 16) :
    Triple (tickIrq id) RampIff (fun d => ProfileInv d ∧ d.currentState = .stopped)
      (appMotorCalculateProfile id targetRPM accelTimeSec microsteps)
      fun d => Prepared d ∧ d.currentState = .stopped := by
  rintro d₀ ⟨h, hstopped⟩
  have hfixed : ∀ i d, d.currentState = .stopped ∧ profileCalls d = profileCalls d₀ →
      tickIrq id i d = d :=
    fun _ _ hd => appMotorKinematicTick1ms_of_stopped id hd.1
  have hsteps := Triple.exec_of_fixed
    (c := profileStatements id targetRPM accelTimeSec microsteps) hfixed
    ⟨fun _ hd => hd, fun _ hd => hd, fun _ hd => hd, fun _ hd => hd, fun _ hd => hd, trivial⟩
    ⟨hstopped, rfl⟩
  have hramp : ∀ d, d.currentState = .stopped ∧ profileCalls d = profileCalls d₀ → RampIff d := by
    rintro d ⟨hstate, hcalls⟩
    have h₀ := h.rampIff
    rw [RampIff, ← hcalls] at h₀
    simpa [RampIff, hstate, hstopped] using h₀
  refine wp_seq (wp_mono hramp (fun d hd => ?_) (hsteps d₀ rfl))
  rw [profileStatements_exec] at hd
  subst hd
  refine Triple.stmt (P := fun d => d = d₀.onShaft
      (calculateProfile id targetRPM accelTimeSec microsteps)) ?_ ?_
    (prepared_tickIrq.and stopped_tickIrq) (fun _ hd => hd.1.1.rampIff) ?_ _ rfl
  · rintro i d rfl
    exact appMotorKinematicTick1ms_of_stopped id hstopped
  · rintro d rfl
    exact hramp _ ⟨hstopped, rfl⟩
  · rintro d rfl
    exact ⟨h.calculate targetRPM accelTimeSec microsteps hstopped, hstopped⟩

/-- The guarded statements of the start set the frequency to the foot of the ramp
before they publish the accelerating state. -/
theorem startBody_profile (direction : BitVec 8) :
    Triple (tickIrq id) RampIff (fun d => Prepared d ∧ d.currentState = .stopped)
      (startBody direction) fun d => ProfileInv d ∧ Moving d := by
  have hstopped : Stable (tickIrq id) fun d => d.currentState = .stopped := stopped_tickIrq
  have hstable := prepared_tickIrq.and hstopped
  have hfoot : Stable (tickIrq id) fun d =>
      (Prepared d ∧ d.currentState = .stopped) ∧ d.currentFreq = d.shaft.startFreq := by
    rintro i d hd
    rwa [tickIrq, appMotorKinematicTick1ms_of_stopped id hd.1.2]
  have htick : Stable (tickIrq id) Moving := moving_tickIrq
  have hmoving := profileInv_tickIrq.and htick
  have hI : ∀ d, Prepared d ∧ d.currentState = .stopped → RampIff d := fun _ hd => hd.1.1.rampIff
  refine .act hstable hI (R := fun d => Prepared d ∧ d.currentState = .stopped)
    (fun d hd => ⟨⟨hd.1.1.of_eq rfl rfl rfl rfl, hd.1.2⟩, hd.2⟩) ?_
  refine .act hstable hI (R := fun d => Prepared d ∧ d.currentState = .stopped)
    (fun d hd => ⟨⟨hd.1.1.of_eq rfl rfl rfl rfl, hd.1.2⟩, hd.2⟩) ?_
  refine .act hstable hI (R := fun d => (Prepared d ∧ d.currentState = .stopped) ∧
    d.currentFreq = d.shaft.startFreq) (fun d hd => ⟨⟨⟨hd.1.1.move hd.1.2 rfl rfl
      fun _ _ hnot => absurd hd.2 hnot, hd.1.2⟩, hd.2⟩, rfl⟩) ?_
  refine .act hfoot (fun d hd => hI d hd.1) (R := fun d => ProfileInv d ∧ Moving d)
    (fun d hd => ⟨hd.1.1.1.move hd.1.1.2 rfl rfl fun hsound _ _ => ?_, .inl rfl⟩) ?_
  · exact ⟨le_of_eq hd.2.symm, le_of_eq_of_le hd.2 (le_of_lt hsound.startFreq_lt)⟩
  refine .act hmoving (fun d hd => hd.1.rampIff) (R := fun d => ProfileInv d ∧ Moving d)
    (fun d hd => ⟨hd.1.of_eq (by simp) (by simp) (by simp)
      (by simp [profileCalls, requestedRPM]), by simpa [Moving] using hd.2⟩) ?_
  exact .stmt hmoving (fun d hd => hd.1.rampIff) hmoving (fun d hd => hd.1.rampIff)
    fun d hd => ⟨hd.1.of_eq rfl rfl rfl rfl, hd.2⟩

/-- A start of a prepared motor keeps the invariant and sets it moving. -/
theorem profile_start (direction : BitVec 8) :
    Triple (tickIrq id) RampIff (fun d => Prepared d ∧ d.currentState = .stopped)
      (appMotorStart direction) fun d => ProfileInv d ∧ Moving d :=
  appMotorStart_of_stopped direction (prepared_tickIrq.and stopped_tickIrq)
    (fun _ hd => hd.1.1.rampIff) (fun _ hd => hd.2)
    (fun _ hd => ⟨⟨hd.1.1.of_eq rfl rfl rfl rfl, hd.1.2⟩, hd.2⟩)
    (.stmt fun _ hd => ⟨hd.1.of_eq rfl rfl rfl rfl, hd.2⟩)
    (profileInv_tickIrq.and moving_tickIrq) (fun _ hd => hd.1.rampIff)
    (startBody_profile direction)

/-- A stop leaves the frequency where it is, inside the ramp. -/
theorem profile_stop :
    Triple (tickIrq id) RampIff (fun d => ProfileInv d ∧ Moving d) appMotorStop
      fun d => ProfileInv d ∧ Ending d :=
  appMotorStop_of_moving (profileInv_tickIrq.and moving_tickIrq) (fun _ hd => hd.1.rampIff)
    (fun _ hd => hd.2) (profileInv_tickIrq.and ending_tickIrq) (fun _ hd => hd.1.rampIff)
    fun _ hd => ⟨hd.1.move (hd.1.calls_ne hd.2.ne_stopped) rfl rfl
      fun _ hfirst _ => hd.1.inRamp hfirst hd.2.ne_stopped, .inl rfl⟩

end Motor
end MDCMotorControl
