import Mathlib.Data.List.Induction
import MDCMotorControl.Library.InterruptibleCode

/-!
# Responses counted in runs of the handler

A response that the interrupt handler works towards comes after a number of its
runs, whatever the program does in between.  The program may only be trusted with
an invariant and with a view of the state that none of its statements touch; this
is enough to carry the count from one run of the handler to the next.

Main results:

- Theorem `System.run_code_keeps`: along a run the code that remains keeps what the
  bodies keep.
- Theorem `System.waits_or_responds`: up to the response every run of the handler
  counts.
-/

namespace Interruptible

universe u v w

variable {σ : Type u} {ι : Type v} {β : Type w} {α : Type*} {view : σ → α}

/-- An event that runs the handler. -/
def Event.isIrq : Event ι β → Bool
  | irq _ => true
  | _ => false

/-- The runs of the handler in a schedule. -/
def handlerRuns (es : List (Event ι β)) : ℕ :=
  es.countP Event.isIrq

@[simp] theorem handlerRuns_nil : handlerRuns ([] : List (Event ι β)) = 0 := rfl

theorem handlerRuns_concat (es : List (Event ι β)) (e : Event ι β) :
    handlerRuns (es ++ [e]) = handlerRuns es + if e.isIrq then 1 else 0 := by
  rw [handlerRuns, List.countP_append, List.countP_singleton, handlerRuns]

namespace System

variable {sys : System σ ι β} {c : Config σ}

theorem run_concat (es : List (Event ι β)) (e : Event ι β) (c : Config σ) :
    sys.run (es ++ [e]) c = sys.step e (sys.run es c) := by
  rw [run_append, run_cons, run_nil]

/-- One event: the code that remains keeps what it and the bodies keep, and the
program leaves the view alone. -/
theorem step_keeps (hbody : ∀ b, (sys.body b).Keeps view) (hc : c.code.Keeps view)
    (e : Event ι β) :
    (sys.step e c).code.Keeps view ∧
      (e.isIrq = false → view (sys.step e c).state = view c.state) := by
  rcases c with ⟨code, s⟩
  cases e with
  | main =>
      cases code with
      | done => exact ⟨hc, fun _ => rfl⟩
      | halt => exact ⟨hc, fun _ => rfl⟩
      | act f next => exact ⟨fun a => (hc a).2, fun _ => (hc (view s)).1 s rfl⟩
      | eval next => exact ⟨fun a => hc a s, fun _ => rfl⟩
  | irq i => cases code <;> exact ⟨hc, nofun⟩
  | enter b =>
      cases code with
      | done => exact ⟨hbody b, fun _ => rfl⟩
      | halt => exact ⟨hc, fun _ => rfl⟩
      | act f next => exact ⟨hc, fun _ => rfl⟩
      | eval next => exact ⟨hc, fun _ => rfl⟩

/-- Along a run the code that remains keeps what the bodies keep. -/
theorem run_code_keeps (hbody : ∀ b, (sys.body b).Keeps view) (hc : c.code.Keeps view)
    (es : List (Event ι β)) : (sys.run es c).code.Keeps view := by
  induction es generalizing c with
  | nil => exact hc
  | cons e es ih => exact ih (step_keeps hbody hc e).1

/-- After a reset nothing happens any more. -/
theorem step_of_halt (h : c.code = .halt) (e : Event ι β) : sys.step e c = c := by
  obtain ⟨code, s⟩ := c
  obtain rfl : code = .halt := h
  cases e <;> rfl

/-- The handler runs unless there has been a reset. -/
theorem step_irq_state (h : c.code ≠ .halt) (i : ι) :
    (sys.step (.irq i) c).state = sys.irq i c.state := by
  rcases c with ⟨code, s⟩
  cases code with
  | halt => exact absurd rfl h
  | _ => rfl

/-- Up to the response every run of the handler counts, and the program does not
interfere: where the invariant holds along the run, the program keeps the count with
the view it leaves alone, and the handler counts on or responds. -/
theorem waits_or_responds {I G : σ → Prop} {W : ℕ → σ → Prop}
    (hI : ∀ es, I (sys.run es c).state) (hbody : ∀ b, (sys.body b).Keeps view)
    (hc : c.code.Keeps view) (hview : ∀ n s s', view s' = view s → W n s → W n s')
    (hirq : ∀ n i s, I s → W n s → W (n + 1) (sys.irq i s) ∨ G (sys.irq i s))
    (hstart : W 0 c.state) (es : List (Event ι β)) (hrunning : (sys.run es c).code ≠ .halt) :
    (∃ done rest, es = done ++ rest ∧ G (sys.run done c).state) ∨
      W (handlerRuns es) (sys.run es c).state := by
  induction es using List.reverseRecOn with
  | nil => exact .inr hstart
  | append_singleton es e ih =>
      have hbefore : (sys.run es c).code ≠ .halt := by
        intro hhalt
        rw [run_concat, step_of_halt hhalt] at hrunning
        exact hrunning hhalt
      rcases ih hbefore with ⟨done, rest, hsplit, hG⟩ | hW
      · refine .inl ⟨done, rest ++ [e], ?_, hG⟩
        rw [hsplit, List.append_assoc]
      rw [run_concat, handlerRuns_concat]
      cases hkind : e.isIrq with
      | false =>
          have hkeeps := (step_keeps hbody (run_code_keeps hbody hc es) e).2 hkind
          exact .inr (hview _ _ _ hkeeps hW)
      | true =>
          obtain ⟨i, rfl⟩ : ∃ i, e = .irq i := by
            cases e with
            | irq i => exact ⟨i, rfl⟩
            | main => cases hkind
            | enter b => cases hkind
          rw [step_irq_state hbefore]
          rcases hirq _ i _ (hI es) hW with hnext | hG
          · exact .inr hnext
          · refine .inl ⟨es ++ [.irq i], [], (List.append_nil _).symm, ?_⟩
            rw [run_concat, step_irq_state hbefore]
            exact hG

end System

end Interruptible
