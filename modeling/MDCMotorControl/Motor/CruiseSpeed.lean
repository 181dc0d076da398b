import MDCMotorControl.Motor.StartPoints

/-!
# The frequency in the hardware while cruising

The tick that reaches the target pushes it, and a cruising tick never pushes
again, so the hardware cruises at the target unless the main context pushes
another frequency after that tick.  It does so when the ramp is climbed between
the publication of the accelerating state and the push of the start frequency.

Main results:

- Theorem `atTarget_run`: if the starts are in time, a cruising motor runs at the
  integer part of the target frequency.
- Theorem `cruise_speed_iff`: the starts being in time is also necessary.
- Theorem `cruise_speed_lost`: a short ramp climbed between publication and push.
-/

namespace MDCMotorControl
namespace Motor

open Interruptible

section

variable {fl : ℚ → ℚ}

/-! ## The cruise invariant -/

/-- A cruising motor runs at the target frequency. -/
def AtTarget (d : Drive) : Prop :=
  d.currentState = .cruising → d.frequency = some (truncToNat d.shaft.targetFreq)

/-- A motor that is not cruising satisfies the invariant. -/
theorem AtTarget.of_ne {d : Drive} (h : d.currentState ≠ .cruising) : AtTarget d :=
  fun hcruise => absurd hcruise h

/-- The tick keeps the invariant: the tick that reaches the target pushes it. -/
theorem atTarget_stable : Stable (driveSystem fl).irq AtTarget := by
  intro _ d h
  show AtTarget (appMotorKinematicTick1ms fl d)
  have hcase := appMotorKinematicTick1ms_cases fl d
  generalize appMotorKinematicTick1ms fl d = d' at hcase
  cases hcase with
  | idle => exact h
  | up hstate => exact .of_ne (by simp [hstate])
  | reach => intro _; simp
  | down hstate => exact .of_ne (by simp [hstate])
  | halt => exact .of_ne (by simp)

/-- The push that comes in time keeps the invariant: the motor still accelerates, or
what is pushed is the target. -/
theorem InTime.atTarget {n : ℕ} {d : Drive} (h : InTime fl n d) :
    AtTarget (d.pushedAfter fl n) := by
  rcases h with hlt | heq
  · have hup := ticks_up (d := { d with currentState := .accelerating })
      (f := d.shaft.climb fl d.currentFreq) rfl rfl (fun _ => rfl) n hlt
    exact .of_ne (by simp [Drive.pushedAfter, hup.1])
  · intro _
    simp [Drive.pushedAfter, heq]

/-- A push that does not come in time leaves the start frequency in a cruising motor. -/
theorem not_atTarget_of_not_inTime {n : ℕ} {d : Drive} (h : ¬ InTime fl n d) :
    (d.pushedAfter fl n).currentState = .cruising ∧
      (d.pushedAfter fl n).frequency ≠
        some (truncToNat (d.pushedAfter fl n).shaft.targetFreq) := by
  obtain ⟨hreach, hne⟩ := not_or.mp h
  have hexists : ∃ k, k < n ∧ d.shaft.targetFreq ≤ d.shaft.climb fl d.currentFreq (k + 1) := by
    simpa using hreach
  -- the first of the ticks that reaches the target
  obtain ⟨hk, hle⟩ := Nat.find_spec hexists
  have hbelow : ∀ k < Nat.find hexists,
      d.shaft.climb fl d.currentFreq (k + 1) < d.shaft.targetFreq := by
    intro k hlt
    have hmin := Nat.find_min hexists hlt
    rw [not_and, not_le] at hmin
    exact hmin (hlt.trans hk)
  have hcruise := (ticks_reach (d := { d with currentState := .accelerating }) rfl rfl
    (fun _ => rfl) hbelow hle hk).1
  refine ⟨by simp [Drive.pushedAfter, hcruise], ?_⟩
  simpa [Drive.pushedAfter] using hne

/-! ## Every statement keeps the invariant -/

/-- A statement that keeps the cruise invariant. -/
def KeepsAtTarget (f : Drive → Drive) : Prop :=
  ∀ d, AtTarget d → AtTarget (f d)

theorem afterPush_sectioned {marked : Code Drive → Prop} :
    afterPush.Sectioned KeepsAtTarget marked :=
  .act (fun _ h => h) <| .act (fun _ h => h) .done

/-- A start is made of plain statements up to the publication. -/
theorem appMotorStart_sectioned (direction : BitVec 8) :
    (appMotorStart direction).Sectioned KeepsAtTarget (· = fromPublication) := by
  have hend : (Code.block [.stmt fun d : Drive => { d with startInProgress := false }]).Sectioned
      KeepsAtTarget (· = fromPublication) :=
    .act (fun _ h => h) .done
  have hbody : ((startBody direction).seq
      (.block [.stmt fun d : Drive => { d with startInProgress := false }])).Sectioned
        KeepsAtTarget (· = fromPublication) :=
    .act (fun _ h => h) <| .act (fun _ h => h) <| .act (fun _ h => h) <|
      .marked (c := fromPublication) rfl .done
  exact .act (fun _ h => h) <| .branch_seq hbody <| .branch_seq hbody hend

theorem appMotorStop_sectioned :
    appMotorStop.Sectioned KeepsAtTarget (· = fromPublication) := by
  have hbody : (Code.stmt fun d : Drive => { d with currentState := .decelerating }).Sectioned
      KeepsAtTarget (· = fromPublication) :=
    .stmt fun _ _ => .of_ne (by simp)
  exact hbody.branch hbody.whenever

/-- A stopped motor stays stopped under ticks. -/
theorem stopped_stable : Stable (driveSystem fl).irq fun d => d.currentState = .stopped := by
  intro _ d h
  show (appMotorKinematicTick1ms fl d).currentState = .stopped
  rwa [appMotorKinematicTick1ms_of_stopped fl h]

/-- Rewriting the profile of a stopped motor keeps the invariant. -/
theorem writeProfile_triple (new : ShaftProfile) :
    Triple (driveSystem fl).irq AtTarget AtTarget (writeProfile new) AtTarget := by
  have hsub : ∀ d : Drive, d.currentState = .stopped → AtTarget d :=
    fun d hd => .of_ne (by simp [hd])
  refine Triple.whenever atTarget_stable (fun _ => id) atTarget_stable
    (fun _ => id) (fun d _ hstopped => ?_) (fun d h _ => h)
  refine (Triple.of_preserves stopped_stable hsub ?_).conseq (fun _ => id) hsub d
    (of_decide_eq_true hstopped)
  exact ⟨fun _ => id, fun _ => id, fun _ => id, fun _ => id, fun _ => id, trivial⟩

/-! ## Runs -/

/-- The main context stands before the push of the start frequency. -/
def BeforePush (fl : ℚ → ℚ) (done : List (Event Unit MainCall)) : Prop :=
  ∃ before during tail, done = before ++ .main :: during ∧ (∀ e ∈ during, e ≠ .main) ∧
    tail.Sectioned KeepsAtTarget (· = fromPublication) ∧
    ((driveSystem fl).run before driveStart).code = fromPublication.seq tail

/-- The main context replaces the profile, or stands before the push. -/
def InsideCall (fl : ℚ → ℚ) (done : List (Event Unit MainCall)) (c : Config Drive) : Prop :=
  wp (driveSystem fl).irq AtTarget AtTarget c.code c.state ∨ BeforePush fl done

/-- One event before the push: the ticks keep the invariant, and so does a push in time. -/
theorem step_beforePush {schedule done rest : List (Event Unit MainCall)}
    {e : Event Unit MainCall} (hintime : StartsInTime fl schedule)
    (hsplit : schedule = done ++ e :: rest) (hpush : BeforePush fl done)
    (hd : AtTarget ((driveSystem fl).run done driveStart).state) :
    let c := (driveSystem fl).step e ((driveSystem fl).run done driveStart)
    AtTarget c.state ∧ (c.code.Sectioned KeepsAtTarget (· = fromPublication) ∨
      InsideCall fl (done ++ [e]) c) := by
  obtain ⟨before, during, tail, rfl, hwait, htail, hpoint⟩ := hpush
  have hpushed : e = .main → InTime fl (handlerRuns during)
      ((driveSystem fl).run before driveStart).state := by
    rintro rfl
    exact hintime before during rest (by simpa using hsplit) hwait ⟨tail, hpoint⟩
  have hrun := run_push hwait hpoint
  by_cases he : e = .main
  · rw [hrun, he]
    exact ⟨(hpushed he).atTarget, .inl (afterPush_sectioned.seq htail)⟩
  · refine ⟨?_, .inr (.inr ⟨before, during ++ [e], tail, by simp, fun a ha => ?_, htail, hpoint⟩)⟩
    · rw [hrun] at hd ⊢
      cases e with
      | main => exact absurd rfl he
      | irq i => exact atTarget_stable i _ hd
      | enter b => exact hd
    · rcases List.mem_append.mp ha with ha | ha
      · exact hwait a ha
      · rwa [List.mem_singleton.mp ha]

/-- Every call is entered with the invariant. -/
theorem enter_call (done : List (Event Unit MainCall)) (call : MainCall) {d : Drive}
    (hd : AtTarget d) :
    call.code.Sectioned KeepsAtTarget (· = fromPublication) ∨
      InsideCall fl (done ++ [.enter call]) ⟨call.code, d⟩ := by
  cases call with
  | profile shaft => exact .inr (.inl (writeProfile_triple shaft.1 d hd))
  | start direction => exact .inl (appMotorStart_sectioned direction)
  | stop => exact .inl appMotorStop_sectioned

/-- One event while the profile is replaced. -/
theorem step_writing {done : List (Event Unit MainCall)} {c : Config Drive}
    (e : Event Unit MainCall) (hwp : wp (driveSystem fl).irq AtTarget AtTarget c.code c.state) :
    AtTarget ((driveSystem fl).step e c).state ∧
      (((driveSystem fl).step e c).code.Sectioned KeepsAtTarget (· = fromPublication) ∨
        InsideCall fl (done ++ [e]) ((driveSystem fl).step e c)) := by
  have hwithin : (∀ call, e ≠ .enter call) → AtTarget ((driveSystem fl).step e c).state ∧
      InsideCall fl (done ++ [e]) ((driveSystem fl).step e c) := fun he =>
    have hstep := System.step_wp (fun call _ heq _ => absurd heq (he call)) hwp
    ⟨wp_invariant hstep, .inl hstep⟩
  cases e with
  | main => exact (hwithin nofun).imp_right .inr
  | irq i => exact (hwithin nofun).imp_right .inr
  | enter call =>
      obtain ⟨code, d⟩ := c
      have hd : AtTarget d := wp_invariant hwp
      cases code with
      | done => exact ⟨hd, enter_call done call hd⟩
      | halt => exact ⟨hd, .inl .halt⟩
      | act f next => exact ⟨hd, .inr (.inl hwp)⟩
      | eval next => exact ⟨hd, .inr (.inl hwp)⟩

/-- One event before the publication: it opens the time of waiting for the push. -/
theorem step_beforePublication {done : List (Event Unit MainCall)} {tail : Code Drive}
    (e : Event Unit MainCall) (htail : tail.Sectioned KeepsAtTarget (· = fromPublication))
    (hpoint : ((driveSystem fl).run done driveStart).code = fromPublication.seq tail)
    (hd : AtTarget ((driveSystem fl).run done driveStart).state) :
    let c := (driveSystem fl).step e ((driveSystem fl).run done driveStart)
    AtTarget c.state ∧ (c.code.Sectioned KeepsAtTarget (· = fromPublication) ∨
      InsideCall fl (done ++ [e]) c) := by
  by_cases he : e = .main
  · subst he
    refine ⟨?_, .inr (.inr ⟨done, [], tail, rfl, nofun, htail, hpoint⟩)⟩
    generalize (driveSystem fl).run done driveStart = c at hpoint
    obtain ⟨code, d⟩ := c
    obtain rfl : code = fromPublication.seq tail := hpoint
    exact .of_ne (by simp [System.step, fromPublication])
  · have hwaits : ((driveSystem fl).run done driveStart).code ≠ .done := by
      rw [hpoint]
      exact nofun
    obtain ⟨hcode, hstate⟩ := System.step_of_waiting (driveSystem fl) atTarget_stable hwaits he
    refine ⟨hstate hd, .inl ?_⟩
    rw [hcode, hpoint]
    exact .marked rfl htail

/-- The cruise invariant along a run whose starts come in time. -/
theorem atTarget_run {schedule done rest : List (Event Unit MainCall)}
    (hintime : StartsInTime fl schedule) (hsplit : schedule = done ++ rest) :
    AtTarget ((driveSystem fl).run done driveStart).state := by
  refine and_or_left.mpr (System.run_sections AtTarget
    (fun done c => AtTarget c.state ∧ InsideCall fl done c) atTarget_stable (fun _ hf => hf)
    (fun done call d hd => (enter_call done call hd).imp id fun h => ⟨hd, h⟩) ?_ ?_
    (.inl ⟨.of_ne (by decide), .done⟩) hsplit) |>.1
  · rintro done e rest _ tail - rfl htail hpoint hd
    exact and_or_left.mp (step_beforePublication e htail hpoint hd)
  · rintro done e rest heq ⟨hd, hwp | hpush⟩
    · exact and_or_left.mp (step_writing e hwp)
    · exact and_or_left.mp (step_beforePush hintime heq hpush hd)

/-- A statement that is executed in the end is executed on the cruising motor it waits
for. -/
theorem run_statement {f : Drive → Drive} {next : Code Drive} {d : Drive}
    {after : List (Event Unit MainCall)} (hcruise : d.currentState = .cruising)
    (hdone : ((driveSystem fl).run after ⟨.act f next, d⟩).code = .done) :
    ∃ during rest, after = during ++ rest ∧
      (driveSystem fl).run during ⟨.act f next, d⟩ = ⟨next, f d⟩ := by
  obtain ⟨during, rest, rfl, hwait⟩ := System.exists_main rfl hdone
  refine ⟨during ++ [.main], rest, by simp, ?_⟩
  rw [System.run_concat, run_waiting hwait, ticks_cruising hcruise]
  rfl

/-- After the push the start returns, and leaves the frequency of a cruising motor. -/
theorem run_afterPush {tail : Code Drive} {d : Drive} {after : List (Event Unit MainCall)}
    (hcruise : d.currentState = .cruising)
    (hdone : ((driveSystem fl).run after ⟨afterPush.seq tail, d⟩).code = .done) :
    ∃ during rest, after = during ++ rest ∧
      (driveSystem fl).run during ⟨afterPush.seq tail, d⟩ =
        ⟨tail, { halMotorStartTimer .main d with startInProgress := false }⟩ := by
  obtain ⟨toTimer, rest, rfl, htimer⟩ := run_statement hcruise hdone
  change (driveSystem fl).run toTimer ⟨afterPush.seq tail, d⟩ = _ at htimer
  rw [System.run_append, htimer] at hdone
  obtain ⟨toEnd, rest, rfl, hend⟩ :=
    run_statement (d := halMotorStartTimer .main d) hcruise hdone
  refine ⟨toTimer ++ toEnd, rest, by simp, ?_⟩
  rw [System.run_append, htimer]
  exact hend

/-- The claim on a schedule: whenever the motor is cruising and no call of
`App_Motor_Start` is in progress, the last frequency pushed to the hardware is the integer
part of the target frequency. -/
def CruisesAtTarget (fl : ℚ → ℚ) (schedule : List (Event Unit MainCall)) : Prop :=
  ∀ pre post, schedule = pre ++ post →
    let d := ((driveSystem fl).run pre driveStart).state
    d.currentState = .cruising → d.startInProgress = false →
      d.frequency = some (truncToNat d.shaft.targetFreq)

/-- A schedule in whose states the cruise speed holds, and that runs every call to its
end, has all starts in time. -/
theorem startsInTime_of_cruisesAtTarget {schedule : List (Event Unit MainCall)}
    (hdone : ((driveSystem fl).run schedule driveStart).code = .done)
    (hcruises : CruisesAtTarget fl schedule) : StartsInTime fl schedule := by
  rintro before during after rfl hwait ⟨tail, hpoint⟩
  by_contra hlate
  obtain ⟨hcruise, hlost⟩ := not_atTarget_of_not_inTime hlate
  have hpushed := run_pushed hwait hpoint
  have hassoc : before ++ .main :: (during ++ .main :: after) =
      before ++ .main :: during ++ [.main] ++ after := by simp
  rw [hassoc, System.run_append, hpushed] at hdone
  obtain ⟨toEnd, rest, rfl, hend⟩ := run_afterPush hcruise hdone
  have hat := hcruises (before ++ .main :: during ++ [.main] ++ toEnd) rest (by simp)
  rw [System.run_append, hpushed, hend] at hat
  exact hlost (hat hcruise rfl)

end
/-! ## Main result -/

/-- In every run whose starts come in time, whenever the motor is cruising and no call of
`App_Motor_Start` is in progress, the last frequency pushed to the hardware is the integer
part of the target frequency; a run that lets its calls return has this property only if
its starts come in time; and in exact arithmetic they do if no profile is climbed in the
ticks between publication and push. -/
theorem cruise_speed_iff (fl : ℚ → ℚ) (schedule : List (Event Unit MainCall)) :
    (StartsInTime fl schedule → CruisesAtTarget fl schedule) ∧
    (((driveSystem fl).run schedule driveStart).code = .done →
      CruisesAtTarget fl schedule → StartsInTime fl schedule) ∧
    (EveryStart id schedule ProfileInTime → StartsInTime id schedule) :=
  ⟨fun hintime _ _ hsplit hcruise _ => atTarget_run hintime hsplit hcruise,
    startsInTime_of_cruisesAtTarget, startsInTime_of_profile⟩

/-! ## Ticks between publication and push -/

/-- The profile of 10 RPM at 5000 microsteps, with a ramp of the given step. -/
def rampOf (accelStepPerMs : ℚ) : ShaftProfile where
  microsteps := 5000
  gearRatio := 3
  minStartRPM := 2
  targetRPM := 10
  startFreq := 500
  targetFreq := 2500
  accelStepPerMs := accelStepPerMs

theorem rampOf_sound {accelStepPerMs : ℚ} (h : 0 < accelStepPerMs) :
    (rampOf accelStepPerMs).Sound where
  startFreq_pos := by norm_num [rampOf]
  startFreq_lt := by norm_num [rampOf]
  accelStep_pos := h

-- the profiles that the firmware computes for ramp times of 1 ms and 10 ms
example : calculateProfile id 10 0 5000 initialShaft = rampOf 2000 ∧
    calculateProfile id 10 (1 / 100) 5000 initialShaft = rampOf 200 := by
  decide +kernel

/-- The profile with the shortest ramp. -/
def oneTick : {shaft : ShaftProfile // shaft.Sound} :=
  ⟨rampOf 2000, rampOf_sound (by norm_num)⟩

/-- The profile with a ramp of ten ticks. -/
def tenTicks : {shaft : ShaftProfile // shaft.Sound} :=
  ⟨rampOf 200, rampOf_sound (by norm_num)⟩

/-- Write a profile and start, with a number of ticks between the publication of the
state and the push, and one tick after the start. -/
def startSchedule (shaft : {shaft : ShaftProfile // shaft.Sound}) (n : ℕ) :
    List (Event Unit MainCall) :=
  [.enter (.profile shaft)] ++ List.replicate 6 .main ++
    [.enter (.start 0)] ++ List.replicate 6 .main ++ List.replicate n (.irq ()) ++
    List.replicate 3 .main ++ [.irq ()]

/-- Nine of the ten ticks of a ramp come before the push, and the motor cruises at the
target frequency after the tenth. -/
theorem cruise_speed_iff_tenTicks :
    let d := ((driveSystem id).run (startSchedule tenTicks 9) driveStart).state
    d.currentState = .cruising ∧ d.frequency = some 2500 := by
  have hcruise : ((driveSystem id).run (startSchedule tenTicks 9) driveStart).state.currentState =
      .cruising := by decide +kernel
  obtain ⟨hheld, -, hintime⟩ := cruise_speed_iff id (startSchedule tenTicks 9)
  have htarget := hheld (hintime (everyStart_of_forall (by decide +kernel)))
    (startSchedule tenTicks 9) [] (List.append_nil _).symm hcruise (by decide +kernel)
  exact ⟨hcruise, htarget.trans (by decide +kernel)⟩

/-- With the tick between the publication of the state and the push, the motor
cruises and the hardware runs at the start frequency. -/
theorem cruise_speed_lost :
    let d := ((driveSystem id).run (startSchedule oneTick 1) driveStart).state
    d.currentState = .cruising ∧ d.startInProgress = false ∧
      d.frequency = some 500 ∧ truncToNat d.shaft.targetFreq = 2500 := by
  decide +kernel

end Motor
end MDCMotorControl