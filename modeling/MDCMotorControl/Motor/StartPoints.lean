import MDCMotorControl.Library.ProgramPoints
import MDCMotorControl.Motor.DriveCode
import MDCMotorControl.Motor.RampTicks

/-!
# The start of the motor, point by point

The main context calls `App_Motor_Start` and `App_Motor_Stop` and replaces the
profile of a stopped motor; the 1 ms tick may land between any two of its
statements.  `App_Motor_Start` publishes the accelerating state before it pushes
the start frequency, so the ticks that land between the two already climb the
ramp.  `StartsInTime` says of a schedule that they do not climb to its end.

Main results:

- Theorems `run_push` and `run_pushed`: the drive before and after the push.
- Theorem `notClimbed_of_publication`: the motor has not climbed its ramp when the
  state is published.
- Theorem `startsInTime_of_profile`: the ticks that land before the push and the
  profile tell whether the starts are in time.
-/

namespace MDCMotorControl
namespace Motor

open Interruptible

/-! ## The main context -/

/-- What the main context does with the drive: replace the profile while the
motor is stopped, start, and stop.  The main loop makes these calls in some
order; every order is allowed here. -/
inductive MainCall where
  | profile (shaft : {shaft : ShaftProfile // shaft.Sound})
  | start (direction : BitVec 8)
  | stop

/-- Replace the profile of a stopped motor, one field at a time. -/
def writeProfile (new : ShaftProfile) : Code Drive :=
  .whenever (·.currentState = .stopped) <| .block [
    .stmt (Drive.onShaft ({ · with microsteps := new.microsteps })),
    .stmt (Drive.onShaft ({ · with targetRPM := new.targetRPM })),
    .stmt (Drive.onShaft ({ · with startFreq := new.startFreq })),
    .stmt (Drive.onShaft ({ · with targetFreq := new.targetFreq })),
    .stmt (Drive.onShaft ({ · with accelStepPerMs := new.accelStepPerMs }))]

/-- The code of one call. -/
def MainCall.code : MainCall → Code Drive
  | profile shaft => writeProfile shaft.1
  | start direction => appMotorStart direction
  | stop => appMotorStop

/-- The main context over the drive, preempted by the 1 ms tick. -/
def driveSystem (fl : ℚ → ℚ) : System Drive Unit MainCall where
  irq _ := appMotorKinematicTick1ms fl
  body := MainCall.code

/-- The drive after initialisation, with no call in progress. -/
def driveStart : Config Drive :=
  ⟨.done, halMotorInit Drive.powerUp⟩

/-! ## Starts in time -/

/-- What is left of `App_Motor_Start` when the start frequency has been pushed. -/
def afterPush : Code Drive :=
  .block [
    .stmt (halMotorStartTimer .main),
    .stmt (fun d => { d with startInProgress := false })]

/-- What is left of it from the publication of the state on. -/
def fromPublication : Code Drive :=
  .block [
    .stmt (fun d => { d with currentState := .accelerating }),
    .stmt (fun d => halMotorSetFrequency .main (truncToNat d.shaft.startFreq) d),
    afterPush]

/-- The frequencies that ticks of an acceleration climb through from a given one. -/
def ShaftProfile.climb (fl : ℚ → ℚ) (shaft : ShaftProfile) (freq : ℚ) : ℕ → ℚ
  | 0 => freq
  | k + 1 => fl (shaft.climb fl freq k + shaft.accelStepPerMs)

/-- A number of ticks does not climb to the target, or the start frequency that is
pushed after them is the target in whole hertz. -/
def InTime (fl : ℚ → ℚ) (n : ℕ) (d : Drive) : Prop :=
  (∀ k < n, d.shaft.climb fl d.currentFreq (k + 1) < d.shaft.targetFreq) ∨
    truncToNat d.shaft.startFreq = truncToNat d.shaft.targetFreq

/-- There is no tick, or the ticks do not climb the profile from the start frequency, or
the start frequency is the target in whole hertz. -/
def ProfileInTime (n : ℕ) (d : Drive) : Prop :=
  n = 0 ∨ d.shaft.startFreq + n * d.shaft.accelStepPerMs < d.shaft.targetFreq ∨
    truncToNat d.shaft.startFreq = truncToNat d.shaft.targetFreq

instance (n : ℕ) (d : Drive) : Decidable (ProfileInTime n d) :=
  inferInstanceAs (Decidable (_ ∨ _ ∨ _))

/-- The drive when the state has been published, a number of ticks have landed, and the
start frequency has been pushed. -/
def Drive.pushedAfter (fl : ℚ → ℚ) (n : ℕ) (d : Drive) : Drive :=
  let published := ticks fl n { d with currentState := .accelerating }
  halMotorSetFrequency .main (truncToNat published.shaft.startFreq) published

/-- A condition on every start of a schedule: on the number of ticks that land between the
publication of the state and the push of the start frequency, and on the drive before the
publication. -/
def EveryStart (fl : ℚ → ℚ) (schedule : List (Event Unit MainCall))
    (cond : ℕ → Drive → Prop) : Prop :=
  ∀ before during after, schedule = before ++ .main :: (during ++ .main :: after) →
    (∀ e ∈ during, e ≠ .main) →
    (∃ tail, ((driveSystem fl).run before driveStart).code = fromPublication.seq tail) →
      cond (handlerRuns during) ((driveSystem fl).run before driveStart).state

/-- The ticks that land there leave every start in time. -/
def StartsInTime (fl : ℚ → ℚ) (schedule : List (Event Unit MainCall)) : Prop :=
  EveryStart fl schedule (InTime fl)

section

variable {fl : ℚ → ℚ}

/-- While a statement of the main context waits, the drive takes the ticks. -/
theorem run_waiting {f : Drive → Drive} {next : Code Drive} {during : List (Event Unit MainCall)}
    (hwait : ∀ e ∈ during, e ≠ .main) (d : Drive) :
    (driveSystem fl).run during ⟨.act f next, d⟩ =
      ⟨.act f next, ticks fl (handlerRuns during) d⟩ := by
  induction during using List.reverseRecOn with
  | nil => rfl
  | append_singleton during e ih =>
      rw [System.run_concat, ih fun a ha => hwait a (List.mem_append_left _ ha),
        handlerRuns_concat]
      cases e with
      | main => exact absurd rfl (hwait .main (by simp))
      | irq i =>
          show _ = (⟨_, ticks fl (handlerRuns during + 1) d⟩ : Config Drive)
          rw [ticks_succ]
          rfl
      | enter b => rfl

/-- The drive when the start frequency is pushed. -/
theorem run_push {before during : List (Event Unit MainCall)} {tail : Code Drive}
    (hwait : ∀ e ∈ during, e ≠ .main)
    (hpoint : ((driveSystem fl).run before driveStart).code = fromPublication.seq tail) :
    (driveSystem fl).run (before ++ .main :: during) driveStart =
      ⟨.act (fun d => halMotorSetFrequency .main (truncToNat d.shaft.startFreq) d)
          (afterPush.seq tail),
        ticks fl (handlerRuns during)
          { ((driveSystem fl).run before driveStart).state with
            currentState := .accelerating }⟩ := by
  rw [System.run_append, System.run_cons]
  generalize (driveSystem fl).run before driveStart = c at hpoint
  obtain ⟨code, d⟩ := c
  obtain rfl : code = fromPublication.seq tail := hpoint
  exact run_waiting hwait _

theorem run_pushed {before during : List (Event Unit MainCall)} {tail : Code Drive}
    (hwait : ∀ e ∈ during, e ≠ .main)
    (hpoint : ((driveSystem fl).run before driveStart).code = fromPublication.seq tail) :
    (driveSystem fl).run (before ++ .main :: during ++ [.main]) driveStart =
      ⟨afterPush.seq tail,
        ((driveSystem fl).run before driveStart).state.pushedAfter fl (handlerRuns during)⟩ := by
  rw [System.run_concat, run_push hwait hpoint]
  rfl
end

/-! ## A condition on the profile -/

/-- The last statement of `App_Motor_Start`. -/
def startEnd : Code Drive :=
  .block [.stmt fun d : Drive => { d with startInProgress := false }]

/-- What is left of `App_Motor_Start` from the read of the stopped state on. -/
def fromStoppedGuard (direction : BitVec 8) : Code Drive :=
  (Code.branch (·.currentState = .stopped) (startBody direction)
    (.whenever (·.currentState = .decelerating) (startBody direction))).seq
      startEnd

/-- What is left of it from the read of the decelerating state on. -/
def fromDeceleratingGuard (direction : BitVec 8) : Code Drive :=
  (Code.whenever (·.currentState = .decelerating) (startBody direction)).seq startEnd

/-- The guarded statements up to the publication. -/
def toPublication (direction : BitVec 8) : Code Drive :=
  .block [
    .stmt (halMotorSetDirection .main direction),
    .stmt (halMotorEnable .main true),
    .stmt (fun d => { d with currentFreq := d.shaft.startFreq })]

/-- The main context stands before a read of the guard. -/
def IsGuard (c : Code Drive) : Prop :=
  ∃ direction, c = fromStoppedGuard direction ∨ c = fromDeceleratingGuard direction

/-- Ticks do not lower the frequency of an acceleration. -/
def StepNonneg (d : Drive) : Prop :=
  0 ≤ d.shaft.accelStepPerMs

/-- The motor does not climb, and is not above the start frequency. -/
def NotClimbed (d : Drive) : Prop :=
  Ending d ∧ d.currentFreq ≤ d.shaft.startFreq

/-- A statement that does not publish the accelerating state. -/
def Unpublishing (f : Drive → Drive) : Prop :=
  (∀ d, StepNonneg d → StepNonneg (f d)) ∧
    ∀ d, d.currentState ≠ .accelerating → (f d).currentState ≠ .accelerating

theorem stepNonneg_stable : Stable (driveSystem id).irq StepNonneg := by
  intro _ d h
  show 0 ≤ (appMotorKinematicTick1ms id d).shaft.accelStepPerMs
  rwa [appMotorKinematicTick1ms_shaft]

theorem notClimbed_stable :
    Stable (driveSystem id).irq fun d => StepNonneg d ∧ NotClimbed d := by
  rintro i d ⟨hstep, hending, hfreq⟩
  refine ⟨stepNonneg_stable i d hstep, ending_tickIrq i d hending, ?_⟩
  show (appMotorKinematicTick1ms id d).currentFreq ≤ (appMotorKinematicTick1ms id d).shaft.startFreq
  rw [appMotorKinematicTick1ms_shaft]
  have hlowered : d.lowered id ≤ d.shaft.startFreq := (sub_le_self _ hstep).trans hfreq
  have hcase := appMotorKinematicTick1ms_cases id d
  generalize appMotorKinematicTick1ms id d = d' at hcase
  cases hcase with
  | idle => exact hfreq
  | up hstate => simp [Ending, hstate] at hending
  | reach hstate => simp [Ending, hstate] at hending
  | down _ hlt => exact absurd hlt (not_lt.mpr hlowered)
  | halt => exact hlowered

/-- The guarded statements take a motor that ends to the foot of its ramp. -/
theorem toPublication_triple (direction : BitVec 8) :
    Triple (driveSystem id).irq StepNonneg (fun d => StepNonneg d ∧ Ending d)
      (toPublication direction) NotClimbed := by
  have hending : Stable (driveSystem id).irq fun d => StepNonneg d ∧ Ending d :=
    stepNonneg_stable.and ending_tickIrq
  have hfoot : Triple (driveSystem id).irq StepNonneg (fun d => StepNonneg d ∧ Ending d)
      (.stmt fun d : Drive => { d with currentFreq := d.shaft.startFreq })
      fun d => StepNonneg d ∧ NotClimbed d :=
    .stmt hending (fun _ h => h.1) notClimbed_stable (fun _ h => h.1)
      fun d h => ⟨h.1, h.2, le_rfl⟩
  have hall : Triple (driveSystem id).irq StepNonneg (fun d => StepNonneg d ∧ Ending d)
      (toPublication direction) fun d => StepNonneg d ∧ NotClimbed d :=
    .act hending (fun _ h => h.1) (fun _ h => h) <|
      .act hending (fun _ h => h.1) (fun _ h => h) hfoot
  exact hall.conseq (fun _ => id) fun _ h => h.2

/-- The main context is between the guard and the publication. -/
def AfterGuard (c : Config Drive) : Prop :=
  ∃ pre tail, c.code = pre.seq (fromPublication.seq tail) ∧
    pre.Preserves (·.currentState ≠ .accelerating) ∧ tail.Sectioned Unpublishing IsGuard ∧
    wp (driveSystem id).irq StepNonneg NotClimbed pre c.state

theorem AfterGuard.of_ending {d : Drive} {tail : Code Drive} (direction : BitVec 8)
    (htail : tail.Sectioned Unpublishing IsGuard) (hstep : StepNonneg d) (hending : Ending d) :
    AfterGuard ⟨(toPublication direction).seq (fromPublication.seq tail), d⟩ :=
  ⟨toPublication direction, tail, rfl, ⟨fun _ h => h, fun _ h => h, fun _ h => h, trivial⟩,
    htail, toPublication_triple direction d ⟨hstep, hending⟩⟩

/-- After the publication the start goes on with plain statements. -/
theorem afterPublication_sectioned {tail : Code Drive}
    (htail : tail.Sectioned Unpublishing IsGuard) :
    ((Code.stmt fun d => halMotorSetFrequency .main (truncToNat d.shaft.startFreq) d).seq
      (afterPush.seq tail)).Sectioned Unpublishing IsGuard := by
  have hpush : Unpublishing fun d =>
      halMotorSetFrequency .main (truncToNat d.shaft.startFreq) d := by
    refine ⟨fun d h => ?_, fun d h => ?_⟩
    · show 0 ≤ (halMotorSetFrequency .main _ d).shaft.accelStepPerMs
      rwa [halMotorSetFrequency_shaft]
    · rwa [halMotorSetFrequency_currentState]
  exact .act hpush <| .act ⟨fun _ h => h, fun _ h => h⟩ <|
    .act ⟨fun _ h => h, fun _ h => h⟩ htail

theorem call_sectioned (call : MainCall) :
    call.code.Sectioned Unpublishing IsGuard := by
  have hkeeps : ∀ f : Drive → Drive, (∀ d, (f d).shaft = d.shaft) →
      (∀ d, d.currentState ≠ .accelerating → (f d).currentState ≠ .accelerating) →
      (Code.stmt f).Sectioned Unpublishing IsGuard := by
    refine fun f hshaft hstate => .stmt ⟨fun d h => ?_, hstate⟩
    show 0 ≤ (f d).shaft.accelStepPerMs
    rwa [hshaft]
  cases call with
  | profile shaft =>
      refine .whenever <| .act ⟨fun _ h => h, fun _ h => h⟩ <| .act ⟨fun _ h => h, fun _ h => h⟩ <|
        .act ⟨fun _ h => h, fun _ h => h⟩ <| .act ⟨fun _ h => h, fun _ h => h⟩ <|
        .act ⟨fun _ _ => shaft.2.accelStep_pos.le, fun _ h => h⟩ .done
  | start direction =>
      refine .block_cons (hkeeps _ (fun _ => rfl) fun _ h => h) ?_
      have hguard : ((fromStoppedGuard direction).seq .done).Sectioned Unpublishing IsGuard :=
        .marked ⟨direction, .inl rfl⟩ .done
      rwa [Code.seq_done_right] at hguard
  | stop =>
      have hbody := hkeeps (fun d => { d with currentState := .decelerating }) (fun _ => rfl)
        (by simp)
      exact hbody.branch hbody.whenever

/-- One event at a read of the guard: the guarded statements are entered by a motor that
ends. -/
theorem step_guard {d : Drive} {guard tail : Code Drive} (e : Event Unit MainCall)
    (hguard : IsGuard guard) (htail : tail.Sectioned Unpublishing IsGuard)
    (hstep : StepNonneg d) :
    StepNonneg ((driveSystem id).step e ⟨guard.seq tail, d⟩).state ∧
      (((driveSystem id).step e ⟨guard.seq tail, d⟩).code.Sectioned Unpublishing IsGuard ∨
        AfterGuard ((driveSystem id).step e ⟨guard.seq tail, d⟩)) := by
  by_cases he : e = .main
  · subst he
    obtain ⟨direction, rfl | rfl⟩ := hguard
    · have hread : (driveSystem id).step .main ⟨(fromStoppedGuard direction).seq tail, d⟩ =
          ⟨((bif decide (d.currentState = .stopped) then startBody direction
            else .whenever (·.currentState = .decelerating) (startBody direction)).seq
              startEnd).seq tail, d⟩ := rfl
      rw [hread]
      refine ⟨hstep, ?_⟩
      cases hstopped : decide (d.currentState = .stopped) with
      | true =>
          exact .inr (.of_ending direction htail hstep (.inr (of_decide_eq_true hstopped)))
      | false => exact .inl (.marked ⟨direction, .inr rfl⟩ htail)
    · have hread : (driveSystem id).step .main ⟨(fromDeceleratingGuard direction).seq tail, d⟩ =
          ⟨((bif decide (d.currentState = .decelerating) then startBody direction
            else .done).seq startEnd).seq tail, d⟩ := rfl
      rw [hread]
      refine ⟨hstep, ?_⟩
      cases hdecelerating : decide (d.currentState = .decelerating) with
      | true =>
          exact .inr (.of_ending direction htail hstep (.inl (of_decide_eq_true hdecelerating)))
      | false => exact .inl (.act ⟨fun _ h => h, fun _ h => h⟩ htail)
  · have hwaits : guard.seq tail ≠ .done := by
      obtain ⟨direction, rfl | rfl⟩ := hguard <;> exact nofun
    obtain ⟨hcode, hstate⟩ := System.step_of_waiting (driveSystem id) (c := ⟨_, d⟩)
      stepNonneg_stable hwaits he
    refine ⟨hstate hstep, .inl ?_⟩
    rw [hcode]
    exact .marked hguard htail

/-- One event between the guard and the publication. -/
theorem step_afterGuard {c : Config Drive} (e : Event Unit MainCall) (hafter : AfterGuard c)
    (hstep : StepNonneg c.state) :
    StepNonneg ((driveSystem id).step e c).state ∧
      (((driveSystem id).step e c).code.Sectioned Unpublishing IsGuard ∨
        AfterGuard ((driveSystem id).step e c)) := by
  obtain ⟨code, d⟩ := c
  obtain ⟨pre, tail, hcode, hpre, htail, hwp⟩ := hafter
  obtain rfl : code = pre.seq (fromPublication.seq tail) := hcode
  have hbefore : ∀ pre' d', pre'.Preserves (·.currentState ≠ .accelerating) →
      wp (driveSystem id).irq StepNonneg NotClimbed pre' d' →
      StepNonneg d' ∧ ((pre'.seq (fromPublication.seq tail)).Sectioned Unpublishing IsGuard ∨
        AfterGuard ⟨pre'.seq (fromPublication.seq tail), d'⟩) :=
    fun pre' _ hpre' hwp' => ⟨wp_invariant hwp', .inr ⟨pre', tail, rfl, hpre', htail, hwp'⟩⟩
  cases pre with
  | done =>
      cases e with
      | main => exact ⟨hstep, .inl (afterPublication_sectioned htail)⟩
      | irq i => exact hbefore .done _ trivial (Always.irq hwp i)
      | enter call => exact hbefore .done _ trivial hwp
  | halt =>
      rw [System.step_of_halt rfl]
      exact hbefore .halt d trivial hwp
  | act f next =>
      cases e with
      | main => exact hbefore next _ hpre.2 hwp.now.2
      | irq i => exact hbefore (.act f next) _ hpre (Always.irq hwp i)
      | enter call => exact hbefore (.act f next) _ hpre hwp
  | eval next =>
      cases e with
      | main => exact hbefore (next d) _ (hpre d) hwp.now.2
      | irq i => exact hbefore (.eval next) _ hpre (Always.irq hwp i)
      | enter call => exact hbefore (.eval next) _ hpre hwp

/-- Plain code and guards do not stand before the publication. -/
theorem not_sectioned_publication (tail : Code Drive) :
    ¬ (fromPublication.seq tail).Sectioned Unpublishing IsGuard := by
  intro hcode
  generalize hpoint : fromPublication.seq tail = code at hcode
  cases hcode with
  | done => cases hpoint
  | halt => cases hpoint
  | act hf _ =>
      injection hpoint with hpublish _
      subst hpublish
      exact hf.2 Drive.powerUp (by decide) rfl
  | eval => cases hpoint
  | marked hguard _ =>
      obtain ⟨direction, rfl | rfl⟩ := hguard <;> cases hpoint

/-- At the publication the motor is at the foot of its ramp. -/
theorem notClimbed_of_publication {done : List (Event Unit MainCall)} {tail : Code Drive}
    (hpoint : ((driveSystem id).run done driveStart).code = fromPublication.seq tail) :
    StepNonneg ((driveSystem id).run done driveStart).state ∧
      NotClimbed ((driveSystem id).run done driveStart).state := by
  have hrun : StepNonneg ((driveSystem id).run done driveStart).state ∧
      (((driveSystem id).run done driveStart).code.Sectioned Unpublishing IsGuard ∨
        AfterGuard ((driveSystem id).run done driveStart)) := by
    refine and_or_left.mpr (System.run_sections StepNonneg
      (fun _ c => StepNonneg c.state ∧ AfterGuard c) stepNonneg_stable
      (fun _ hf => hf.1) (fun _ call _ _ => .inl (call_sectioned call)) ?_ ?_
      (.inl ⟨le_rfl, .done⟩) (List.append_nil done).symm)
    · rintro done e - guard tail - hguard htail hcode hstep
      generalize (driveSystem id).run done driveStart = c at hcode hstep
      obtain ⟨code, d⟩ := c
      obtain rfl : code = guard.seq tail := hcode
      exact and_or_left.mp (step_guard e hguard htail hstep)
    · exact fun _ e _ _ h => and_or_left.mp (step_afterGuard e h.2 h.1)
  refine ⟨hrun.1, ?_⟩
  rcases hrun.2 with hcode | ⟨pre, tail', hcode, hpre, -, hwp⟩
  · rw [hpoint] at hcode
    exact absurd hcode (not_sectioned_publication tail)
  · rw [hpoint] at hcode
    cases pre with
    | done => exact hwp.now.2
    | halt => cases hcode
    | act f next =>
        injection hcode with hpublish _
        subst hpublish
        exact absurd rfl (hpre.1 Drive.powerUp (by decide))
    | eval next => cases hcode

theorem ShaftProfile.climb_id (shaft : ShaftProfile) (freq : ℚ) (k : ℕ) :
    shaft.climb id freq k = freq + k * shaft.accelStepPerMs := by
  induction k with
  | zero => simp [climb]
  | succ k ih =>
      simp only [climb, ih, id_eq]
      push_cast
      ring

/-- In exact arithmetic, the starts are in time if no profile is climbed before the push. -/
theorem startsInTime_of_profile {schedule : List (Event Unit MainCall)}
    (h : EveryStart id schedule ProfileInTime) : StartsInTime id schedule := by
  rintro before during after hsplit hwait ⟨tail, hpoint⟩
  obtain ⟨hstep, -, hfoot⟩ := notClimbed_of_publication hpoint
  rcases h before during after hsplit hwait ⟨tail, hpoint⟩ with hnone | hlt | heq
  · exact .inl fun k hk => absurd hk (by omega)
  · refine .inl fun k hk => ?_
    rw [ShaftProfile.climb_id]
    refine lt_of_le_of_lt (add_le_add hfoot (mul_le_mul_of_nonneg_right ?_ hstep)) hlt
    exact_mod_cast hk
  · exact .inr heq
/-- A step of the main context. -/
def isMain : Event Unit MainCall → Bool
  | .main => true
  | _ => false

/-- A schedule can be checked step by step: the condition holds of the ticks that land
after a step and before the next one of the main context. -/
theorem everyStart_of_forall {fl : ℚ → ℚ} {schedule : List (Event Unit MainCall)}
    {cond : ℕ → Drive → Prop}
    (h : ∀ i < schedule.length, (schedule.drop (i + 1)).any isMain = true →
      cond (handlerRuns ((schedule.drop (i + 1)).takeWhile (!isMain ·)))
        ((driveSystem fl).run (schedule.take i) driveStart).state) :
    EveryStart fl schedule cond := by
  rintro before during after rfl hwait -
  have hduring : ∀ e ∈ during, (!isMain e) = true := by
    intro e he
    cases e with
    | main => exact absurd rfl (hwait _ he)
    | irq i => rfl
    | enter call => rfl
  have hi := h before.length (by simp)
  have hdrop : (before ++ .main :: (during ++ .main :: after)).drop (before.length + 1) =
      during ++ .main :: after := by simp [List.drop_append]
  rw [hdrop, List.takeWhile_append_of_pos hduring, List.take_left] at hi
  simpa [isMain] using hi

end Motor
end MDCMotorControl
