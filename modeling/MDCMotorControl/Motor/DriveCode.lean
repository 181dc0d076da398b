import MDCMotorControl.Motor.Kinematics

/-!
# Start and stop under ticks

Rules for the two calls that change the motor state in the main context, on a
motor whose state is known up to what ticks do to it.

Main results:

- Theorems `moving_tickIrq` and `ending_tickIrq`: ticks take an accelerating motor
  to its cruise, a decelerating one to its stop, and do nothing else to the state.
- Theorem `appMotorStart_of_stopped`: a start of a stopped motor runs the guarded
  statements.
- Theorem `appMotorStop_of_moving`: a stop of a moving motor always takes effect.
-/

namespace MDCMotorControl
namespace Motor

open Interruptible

/-! ## States up to ticks -/

/-- Accelerating or cruising. -/
def Moving (d : Drive) : Prop :=
  d.currentState = .accelerating ∨ d.currentState = .cruising

/-- Decelerating or stopped. -/
def Ending (d : Drive) : Prop :=
  d.currentState = .decelerating ∨ d.currentState = .stopped

theorem Moving.ne_stopped {d : Drive} (h : Moving d) : d.currentState ≠ .stopped := by
  rcases h with h | h <;> simp [h]

section

variable {fl : ℚ → ℚ}

theorem stopped_tickIrq : Stable (tickIrq fl) fun d => d.currentState = .stopped := by
  intro _ d h
  rwa [tickIrq, appMotorKinematicTick1ms_of_stopped fl h]

theorem moving_tickIrq : Stable (tickIrq fl) Moving := by
  intro _ d h
  have hcase := appMotorKinematicTick1ms_cases fl d
  show Moving (appMotorKinematicTick1ms fl d)
  generalize appMotorKinematicTick1ms fl d = d' at hcase
  cases hcase with
  | idle => exact h
  | up hstate => exact .inl (by simp [hstate])
  | reach => exact .inr (by simp)
  | down hstate => simp [Moving, hstate] at h
  | halt hstate => simp [Moving, hstate] at h

theorem ending_tickIrq : Stable (tickIrq fl) Ending := by
  intro _ d h
  have hcase := appMotorKinematicTick1ms_cases fl d
  show Ending (appMotorKinematicTick1ms fl d)
  generalize appMotorKinematicTick1ms fl d = d' at hcase
  cases hcase with
  | idle => exact h
  | up hstate => simp [Ending, hstate] at h
  | reach hstate => simp [Ending, hstate] at h
  | down hstate => exact .inl (by simp [hstate])
  | halt => exact .inr rfl

/-! ## Rules for the calls -/

/-- A call of `App_Motor_Start` on a stopped motor runs its guarded statements. -/
theorem appMotorStart_of_stopped {I Q : Drive → Prop} (direction : BitVec 8)
    {P : Drive → Prop} (hP : Stable (tickIrq fl) P) (hPI : ∀ d, P d → I d)
    (hstopped : ∀ d, P d → d.currentState = .stopped)
    (hbegin : ∀ d, P d →
      P { d.log .main (.appMotorStart direction) with startInProgress := true })
    (hend : (Code.stmt fun d : Drive => { d with startInProgress := false }).Preserves Q)
    (hQ : Stable (tickIrq fl) Q) (hQI : ∀ d, Q d → I d)
    (hbody : Triple (tickIrq fl) I P (startBody direction) Q) :
    Triple (tickIrq fl) I P (appMotorStart direction) Q := by
  refine (Triple.stmt hP hPI hP hPI hbegin).seq (Triple.seq (R := Q)
    (.branch hP hPI (fun d hd _ => hbody d hd) fun d hd hcond => ?_) ?_)
  · exact absurd (hstopped d hd) (of_decide_eq_false hcond)
  · rw [Code.block_singleton]
    exact .of_preserves hQ hQI hend

theorem cruising_tickIrq : Stable (tickIrq fl) fun d => d.currentState = .cruising := by
  intro _ d h
  simp [tickIrq, appMotorKinematicTick1ms, h]

/-- A call of `App_Motor_Stop` on a moving motor takes effect, wherever the tick
that ends the acceleration lands. -/
theorem appMotorStop_of_moving {I P Q : Drive → Prop} (hP : Stable (tickIrq fl) P)
    (hPI : ∀ d, P d → I d) (hmoving : ∀ d, P d → Moving d)
    (hQ : Stable (tickIrq fl) Q) (hQI : ∀ d, Q d → I d)
    (hstop : ∀ d, P d → Q { d with currentState := .decelerating }) :
    Triple (tickIrq fl) I P appMotorStop Q := by
  have hcruise : Stable (tickIrq fl) fun d => P d ∧ d.currentState = .cruising :=
    hP.and cruising_tickIrq
  refine .branch hP hPI (fun d hd _ => Triple.stmt hP hPI hQ hQI hstop d hd) fun d hd hcond => ?_
  have hstate : d.currentState = .cruising :=
    (hmoving d hd).resolve_left (of_decide_eq_false hcond)
  refine Triple.whenever hcruise (fun e he => hPI e he.1) hQ hQI ?_ ?_ d ⟨hd, hstate⟩
  · exact fun e he _ => Triple.stmt hP hPI hQ hQI hstop e he.1
  · exact fun e he hnot => absurd he.2 (of_decide_eq_false hnot)

end

end Motor
end MDCMotorControl
