import MDCMotorControl.Library.BoundedResponse

/-!
# What a single statement does while a condition holds

A relation between the state before and the state after that holds of every statement which
is executed while some condition holds.  Where an assertion only tells what is true at a
point, such a relation tells what can change from one point to the next, and so what a
stretch of a run leaves alone as long as the condition holds along it.

Main results:

- Theorem `System.step_relates`: one event of a run.
- Theorem `System.counts_while`: along a stretch on which the condition holds, a count
  follows the runs of the handler.
-/

namespace Interruptible

universe u v w

variable {σ : Type u} {ι : Type v} {β : Type w} {K : σ → Prop} {R : σ → σ → Prop}

namespace Code

/-- As long as a condition holds, every statement relates the state before it to the one
after it. -/
def StepsWhile (K : σ → Prop) (R : σ → σ → Prop) : Code σ → Prop
  | done => True
  | halt => True
  | act f next => ∀ s, K s → K (f s) → R s (f s) ∧ next.StepsWhile K R
  | eval next => ∀ s, K s → (next s).StepsWhile K R

theorem StepsWhile.seq {c k : Code σ} (hc : c.StepsWhile K R) (hk : k.StepsWhile K R) :
    (c.seq k).StepsWhile K R := by
  induction c with
  | done => exact hk
  | halt => trivial
  | act f next ih => exact fun s hs hs' => (hc s hs hs').imp id ih
  | eval next ih => exact fun s hs => ih s (hc s hs)

end Code

namespace System

variable {sys : System σ ι β} {c : Config σ}

/-- One event between two states with the condition: the code that remains relates states as
it and the bodies do, and the program stays or makes a step of the relation. -/
theorem step_relates (hbody : ∀ b, (sys.body b).StepsWhile K R) (hc : c.code.StepsWhile K R)
    {e : Event ι β} (hK : K c.state) (hK' : K (sys.step e c).state) :
    (sys.step e c).code.StepsWhile K R ∧
      (e.isIrq = false →
        (sys.step e c).state = c.state ∨ R c.state (sys.step e c).state) := by
  rcases c with ⟨code, s⟩
  cases e with
  | main =>
      cases code with
      | done => exact ⟨hc, fun _ => .inl rfl⟩
      | halt => exact ⟨hc, fun _ => .inl rfl⟩
      | act f next => exact ⟨(hc s hK hK').2, fun _ => .inr (hc s hK hK').1⟩
      | eval next => exact ⟨hc s hK, fun _ => .inl rfl⟩
  | irq i => cases code <;> exact ⟨hc, nofun⟩
  | enter b =>
      cases code with
      | done => exact ⟨hbody b, fun _ => .inl rfl⟩
      | halt => exact ⟨hc, fun _ => .inl rfl⟩
      | act f next => exact ⟨hc, fun _ => .inl rfl⟩
      | eval next => exact ⟨hc, fun _ => .inl rfl⟩

/-- Along a stretch on which the condition holds all the time, the code that remains relates
states as the bodies do, and the runs of the handler count if the relation keeps the
count. -/
theorem counts_while {W : ℕ → σ → Prop} (hbody : ∀ b, (sys.body b).StepsWhile K R)
    (hc : c.code.StepsWhile K R) (hstep : ∀ n s s', R s s' → W n s → W n s')
    (hirq : ∀ n i s, W n s → W (n + 1) (sys.irq i s)) (hstart : W 0 c.state)
    (es : List (Event ι β)) (hkept : ∀ pre rest, es = pre ++ rest → K (sys.run pre c).state)
    (hrunning : (sys.run es c).code ≠ .halt) :
    (sys.run es c).code.StepsWhile K R ∧ W (handlerRuns es) (sys.run es c).state := by
  induction es using List.reverseRecOn with
  | nil => exact ⟨hc, hstart⟩
  | append_singleton es e ih =>
      have hbefore : (sys.run es c).code ≠ .halt := by
        intro hhalt
        rw [run_concat, step_of_halt hhalt] at hrunning
        exact hrunning hhalt
      obtain ⟨hcode, hW⟩ := ih (fun pre rest hsplit => hkept pre (rest ++ [e])
        (by rw [hsplit, List.append_assoc])) hbefore
      have hK := hkept es [e] rfl
      have hK' := hkept (es ++ [e]) [] (List.append_nil _).symm
      rw [run_concat] at hK'
      rw [run_concat, handlerRuns_concat]
      obtain ⟨hcode', hstate⟩ := step_relates hbody hcode hK hK'
      refine ⟨hcode', ?_⟩
      cases hkind : e.isIrq with
      | false =>
          rcases hstate hkind with hsame | hR
          · rw [hsame]
            exact hW
          · exact hstep _ _ _ hR hW
      | true =>
          obtain ⟨i, rfl⟩ : ∃ i, e = .irq i := by
            cases e with
            | irq i => exact ⟨i, rfl⟩
            | main => cases hkind
            | enter b => cases hkind
          rw [step_irq_state hbefore]
          exact hirq _ i _ hW

end System

end Interruptible
