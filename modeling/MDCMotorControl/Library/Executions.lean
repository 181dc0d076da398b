import MDCMotorControl.Library.InterruptibleCode

/-!
# Complete executions of preempted code

A schedule may contain events in which nothing happens.  A complete execution
records the steps of the program and the runs of the handler alone, from a state
to the return or the reset of the code.  In this form executions compose and
decompose along the program, and two executions can be compared.

Main results:

- Theorems `run_of_completes` and `exists_completes`: complete executions are the
  runs that reach the end of the code.
- Theorem `Completes.seq_inv`: an execution of a sequence is one of its parts, one
  after the other.
- Theorem `Completes.determined`: a view that the handler leaves alone ends as it
  would undisturbed.
- Theorem `Completes.lockstep`: executions of one code with the same turns, from
  states with the same view, end with the same view.
-/

namespace Interruptible

universe u v w

variable {σ : Type u} {ι : Type v} {β : Type w}

/-! ## Executions -/

/-- A step of the program, or a run of the handler. -/
inductive Turn (ι : Type v) where
  | main
  | irq (input : ι)
deriving DecidableEq

/-- The event of a turn. -/
def Turn.event : Turn ι → Event ι β
  | main => .main
  | irq i => .irq i

/-- The inputs of the handler runs, in order. -/
def handled : List (Turn ι) → List ι
  | [] => []
  | .main :: ts => handled ts
  | .irq i :: ts => i :: handled ts

/-- How an execution ends. -/
inductive Exit where
  | returned
  | reset
deriving DecidableEq

/-- The code that an ending leaves. -/
def Exit.code : Exit → Code σ
  | returned => .done
  | reset => .halt

/-- From a state and through some turns, the code runs to its end.  After a reset
the handler does not run. -/
inductive Completes (irq : ι → σ → σ) : Code σ → σ → List (Turn ι) → Exit → σ → Prop where
  | done {s : σ} : Completes irq .done s [] .returned s
  | halt {s : σ} : Completes irq .halt s [] .reset s
  | act {f : σ → σ} {next : Code σ} {s s' : σ} {ts : List (Turn ι)} {r : Exit}
      (h : Completes irq next (f s) ts r s') : Completes irq (.act f next) s (.main :: ts) r s'
  | eval {next : σ → Code σ} {s s' : σ} {ts : List (Turn ι)} {r : Exit}
      (h : Completes irq (next s) s ts r s') : Completes irq (.eval next) s (.main :: ts) r s'
  | irq {c : Code σ} {i : ι} {s s' : σ} {ts : List (Turn ι)} {r : Exit} (hc : c ≠ .halt)
      (h : Completes irq c (irq i s) ts r s') : Completes irq c s (.irq i :: ts) r s'

/-- The code ends after at most so many program steps. -/
def Code.Within : Code σ → ℕ → Prop
  | done, _ => True
  | halt, _ => True
  | act _ next, n => 0 < n ∧ next.Within (n - 1)
  | eval next, n => 0 < n ∧ ∀ s, (next s).Within (n - 1)

/-- The code ends with a reset, whichever way its conditions go. -/
def Code.Resets : Code σ → Prop
  | done => False
  | halt => True
  | act _ next => next.Resets
  | eval next => ∀ s, (next s).Resets

namespace Code

theorem Within.mono {c : Code σ} {m n : ℕ} (h : c.Within m) (hmn : m ≤ n) : c.Within n := by
  induction c generalizing m n with
  | done => trivial
  | halt => trivial
  | act f next ih => exact ⟨Nat.lt_of_lt_of_le h.1 hmn, ih h.2 (by omega)⟩
  | eval next ih => exact ⟨Nat.lt_of_lt_of_le h.1 hmn, fun s => ih s (h.2 s) (by omega)⟩

theorem Within.seq {c k : Code σ} {m n : ℕ} (hc : c.Within m) (hk : k.Within n) :
    (c.seq k).Within (m + n) := by
  induction c generalizing m with
  | done => exact hk.mono (by omega)
  | halt => trivial
  | act f next ih =>
      have hpos := hc.1
      exact ⟨by omega, (ih hc.2).mono (by omega)⟩
  | eval next ih =>
      have hpos := hc.1
      exact ⟨by omega, fun s => (ih s (hc.2 s)).mono (by omega)⟩

theorem Within.branch {c : σ → Bool} {yes no : Code σ} {n : ℕ} (hyes : yes.Within n)
    (hno : no.Within n) : (Code.branch c yes no).Within (n + 1) := by
  refine ⟨by omega, fun s => ?_⟩
  cases hcond : c s with
  | false => simpa [hcond] using hno
  | true => simpa [hcond] using hyes

/-- How the code ends when it runs undisturbed. -/
def exit : Code σ → σ → Exit
  | done, _ => .returned
  | halt, _ => .reset
  | act f next, s => next.exit (f s)
  | eval next, s => (next s).exit s

end Code

/-- The number of program steps in a schedule. -/
def programSteps : List (Event ι β) → ℕ
  | [] => 0
  | .main :: es => programSteps es + 1
  | _ :: es => programSteps es

/-- The first of the program steps. -/
theorem exists_programStep {es : List (Event ι β)} {n : ℕ} (h : programSteps es = n + 1) :
    ∃ during after, es = during ++ .main :: after ∧ programSteps during = 0 ∧
      programSteps after = n := by
  induction es with
  | nil => cases h
  | cons e es ih =>
      cases e with
      | main => exact ⟨[], es, rfl, rfl, Nat.succ.inj h⟩
      | irq i =>
          obtain ⟨during, after, rfl, hduring, hafter⟩ := ih h
          exact ⟨.irq i :: during, after, rfl, hduring, hafter⟩
      | enter b =>
          obtain ⟨during, after, rfl, hduring, hafter⟩ := ih h
          exact ⟨.enter b :: during, after, rfl, hduring, hafter⟩

namespace System

variable {sys : System σ ι β} {c : Code σ} {s s' : σ} {r : Exit}

/-- Enough program steps, however preempted, run the code to its end. -/
theorem run_within {es : List (Event ι β)} {n : ℕ} (hes : ∀ e ∈ es, e.isEnter = false)
    (hc : c.Within n) (hn : n ≤ programSteps es) :
    ∃ r : Exit, (sys.run es ⟨c, s⟩).code = r.code := by
  induction es generalizing c s n with
  | nil =>
      obtain rfl : n = 0 := Nat.le_zero.mp hn
      cases c with
      | done => exact ⟨.returned, rfl⟩
      | halt => exact ⟨.reset, rfl⟩
      | act f next => exact absurd hc.1 (Nat.lt_irrefl 0)
      | eval next => exact absurd hc.1 (Nat.lt_irrefl 0)
  | cons e es ih =>
      have hrest := fun d hd => hes d (List.mem_cons_of_mem e hd)
      rw [run_cons]
      cases e with
      | enter b =>
          have henter := hes (.enter b) List.mem_cons_self
          cases henter
      | irq i =>
          cases c with
          | done => exact ih hrest hc hn
          | halt => exact ih hrest hc hn
          | act f next => exact ih hrest hc hn
          | eval next => exact ih hrest hc hn
      | main =>
          have hsteps : n - 1 ≤ programSteps es := by
            rw [programSteps] at hn
            omega
          cases c with
          | done => exact ih (n := 0) hrest trivial (Nat.zero_le _)
          | halt => exact ih (n := 0) hrest trivial (Nat.zero_le _)
          | act f next => exact ih hrest hc.2 hsteps
          | eval next => exact ih hrest (hc.2 s) hsteps

/-- A handler run, unless the processor has been reset. -/
theorem step_irq (hc : c ≠ .halt) (i : ι) : sys.step (.irq i) ⟨c, s⟩ = ⟨c, sys.irq i s⟩ := by
  cases c with
  | halt => exact absurd rfl hc
  | done => rfl
  | act f next => rfl
  | eval next => rfl

/-- A complete execution is a run. -/
theorem run_of_completes {ts : List (Turn ι)} (h : Completes sys.irq c s ts r s') :
    sys.run (ts.map Turn.event) ⟨c, s⟩ = ⟨r.code, s'⟩ := by
  induction h with
  | done => rfl
  | halt => rfl
  | act _ ih => exact ih
  | eval _ ih => exact ih
  | irq hc _ ih =>
      rw [List.map_cons, Turn.event, run_cons, step_irq hc]
      exact ih

/-- A run within one body that ends with a return or a reset is a complete
execution. -/
theorem exists_completes {es : List (Event ι β)} (hes : ∀ e ∈ es, e.isEnter = false)
    (h : sys.run es ⟨c, s⟩ = ⟨r.code, s'⟩) : ∃ ts, Completes sys.irq c s ts r s' := by
  induction es generalizing c s with
  | nil =>
      obtain ⟨rfl, rfl⟩ := Config.mk.inj h
      cases r with
      | returned => exact ⟨[], .done⟩
      | reset => exact ⟨[], .halt⟩
  | cons e es ih =>
      have hrest := fun d hd => hes d (List.mem_cons_of_mem e hd)
      rw [run_cons] at h
      by_cases hc : c = .halt
      · subst hc
        have hstuck : sys.step e ⟨.halt, s⟩ = ⟨.halt, s⟩ := by
          cases e <;> rfl
        exact ih hrest (hstuck ▸ h)
      · cases e with
        | enter b =>
            have henter := hes (.enter b) List.mem_cons_self
            cases henter
        | irq i =>
            rw [step_irq hc] at h
            obtain ⟨ts, hts⟩ := ih hrest h
            exact ⟨.irq i :: ts, .irq hc hts⟩
        | main =>
            cases c with
            | done => exact ih hrest h
            | halt => exact absurd rfl hc
            | act f next =>
                obtain ⟨ts, hts⟩ := ih hrest h
                exact ⟨.main :: ts, .act hts⟩
            | eval next =>
                obtain ⟨ts, hts⟩ := ih hrest h
                exact ⟨.main :: ts, .eval hts⟩

end System

namespace Completes

variable {irq : ι → σ → σ} {c k : Code σ} {s s' s₁ t t' : σ} {ts ts₁ ts₂ : List (Turn ι)}
  {r q : Exit}

/-! ## Sequences -/

/-- An execution of a sequence executes the first part and then the second, or
ends with a reset in the first part. -/
theorem seq_inv (h : Completes irq (c.seq k) s ts r s') :
    (∃ ts₁ ts₂ s₁, ts = ts₁ ++ ts₂ ∧ Completes irq c s ts₁ .returned s₁ ∧
      Completes irq k s₁ ts₂ r s') ∨ (r = .reset ∧ Completes irq c s ts .reset s') := by
  generalize hd : c.seq k = d at h
  induction h generalizing c with
  | @done s =>
      cases c with
      | done =>
          obtain rfl : k = .done := hd
          exact .inl ⟨[], [], s, rfl, .done, .done⟩
      | halt => cases hd
      | act f next => cases hd
      | eval next => cases hd
  | @halt s =>
      cases c with
      | done =>
          obtain rfl : k = .halt := hd
          exact .inl ⟨[], [], s, rfl, .done, .halt⟩
      | halt => exact .inr ⟨rfl, .halt⟩
      | act f next => cases hd
      | eval next => cases hd
  | @act f next s s' ts r h ih =>
      cases c with
      | done =>
          obtain rfl : k = .act f next := hd
          exact .inl ⟨[], .main :: ts, s, rfl, .done, .act h⟩
      | halt => cases hd
      | act g rest =>
          obtain ⟨rfl, rfl⟩ := Code.act.inj hd
          rcases ih rfl with ⟨ts₁, ts₂, s₁, rfl, h₁, h₂⟩ | ⟨hr, h₁⟩
          · exact .inl ⟨.main :: ts₁, ts₂, s₁, rfl, .act h₁, h₂⟩
          · exact .inr ⟨hr, .act h₁⟩
      | eval next => cases hd
  | @eval next s s' ts r h ih =>
      cases c with
      | done =>
          obtain rfl : k = .eval next := hd
          exact .inl ⟨[], .main :: ts, s, rfl, .done, .eval h⟩
      | halt => cases hd
      | act g rest => cases hd
      | eval rest =>
          obtain rfl := Code.eval.inj hd
          rcases ih rfl with ⟨ts₁, ts₂, s₁, rfl, h₁, h₂⟩ | ⟨hr, h₁⟩
          · exact .inl ⟨.main :: ts₁, ts₂, s₁, rfl, .eval h₁, h₂⟩
          · exact .inr ⟨hr, .eval h₁⟩
  | @irq d i s s' ts r hhalt h ih =>
      subst hd
      cases c with
      | done => exact .inl ⟨[], .irq i :: ts, s, rfl, .done, .irq hhalt h⟩
      | halt => exact absurd rfl hhalt
      | act g rest =>
          rcases ih rfl with ⟨ts₁, ts₂, s₁, rfl, h₁, h₂⟩ | ⟨hr, h₁⟩
          · exact .inl ⟨.irq i :: ts₁, ts₂, s₁, rfl, .irq (by simp) h₁, h₂⟩
          · exact .inr ⟨hr, .irq (by simp) h₁⟩
      | eval rest =>
          rcases ih rfl with ⟨ts₁, ts₂, s₁, rfl, h₁, h₂⟩ | ⟨hr, h₁⟩
          · exact .inl ⟨.irq i :: ts₁, ts₂, s₁, rfl, .irq (by simp) h₁, h₂⟩
          · exact .inr ⟨hr, .irq (by simp) h₁⟩

/-- An execution of a sequence that returns executes both parts. -/
theorem seq_inv_returned (h : Completes irq (c.seq k) s ts .returned s') :
    ∃ ts₁ ts₂ s₁, ts = ts₁ ++ ts₂ ∧ Completes irq c s ts₁ .returned s₁ ∧
      Completes irq k s₁ ts₂ .returned s' := by
  rcases h.seq_inv with hparts | ⟨hr, _⟩
  · exact hparts
  · cases hr

/-- Executions in a row; the second part may not be a bare reset, which would cut
off handler runs after the return of the first. -/
theorem seq (hk : k ≠ .halt) (h₁ : Completes irq c s ts₁ .returned s₁)
    (h₂ : Completes irq k s₁ ts₂ r s') : Completes irq (c.seq k) s (ts₁ ++ ts₂) r s' := by
  generalize hr : Exit.returned = e at h₁
  induction h₁ with
  | done => exact h₂
  | halt => cases hr
  | act _ ih => exact .act (ih h₂ hr)
  | eval _ ih => exact .eval (ih h₂ hr)
  | @irq d i _ _ _ _ hc _ ih =>
      refine .irq ?_ (ih h₂ hr)
      cases d with
      | done => exact hk
      | halt => exact absurd rfl hc
      | act f next => simp
      | eval next => simp

/-- The code chosen by a read of the state runs from a state in which every
assertion still holds that the handler keeps. -/
theorem eval_inv {P : σ → Prop} {next : σ → Code σ} (h : Completes irq (.eval next) s ts r s')
    (hP : Stable irq P) (hs : P s) :
    ∃ s₁ ts', P s₁ ∧ Completes irq (next s₁) s₁ ts' r s' := by
  generalize hd : Code.eval next = d at h
  induction h with
  | done => cases hd
  | halt => cases hd
  | act _ _ => cases hd
  | @eval rest s _ ts _ h _ =>
      obtain rfl := Code.eval.inj hd
      exact ⟨s, ts, hs, h⟩
  | irq _ _ ih => exact ih (hP _ _ hs) hd

/-- A code that ends with a reset, whichever way its conditions go, does not
return. -/
theorem reset (h : Completes irq c s ts r s') (hc : c.Resets) : r = .reset := by
  induction h with
  | done => exact hc.elim
  | halt => rfl
  | act _ ih => exact ih hc
  | @eval next s _ _ _ _ ih => exact ih (hc s)
  | irq _ _ ih => exact ih hc

/-- A conditional reset that returns has done nothing. -/
theorem whenever_resets {b : σ → Bool} {body : Code σ}
    (h : Completes irq (.whenever b body) s ts .returned s') (hbody : body.Resets) :
    Completes irq (.eval fun _ => .done) s ts .returned s' := by
  generalize hd : Code.whenever b body = d at h
  generalize hr : Exit.returned = e at h ⊢
  induction h with
  | done => cases hd
  | halt => cases hd
  | act _ _ => cases hd
  | @eval next s _ ts r h _ =>
      obtain rfl := Code.eval.inj hd
      subst hr
      cases hcond : b s with
      | false =>
          simp only [hcond, cond_false] at h
          exact .eval h
      | true =>
          simp only [hcond, cond_true] at h
          have hreset := h.reset hbody
          cases hreset
  | irq _ _ ih => exact .irq (by simp) (ih hd hr)

/-- Code without a reset returns. -/
theorem returned (h : Completes irq c s ts r s') (hc : c.Returns) : r = .returned := by
  induction h with
  | done => rfl
  | halt => exact hc.elim
  | act _ ih => exact ih hc
  | @eval next s _ _ _ _ ih => exact ih (hc s)
  | irq _ _ ih => exact ih hc

/-- An execution of a sequence whose first part has no reset executes both parts. -/
theorem seq_inv_returns (h : Completes irq (c.seq k) s ts r s') (hc : c.Returns) :
    ∃ ts₁ ts₂ s₁, ts = ts₁ ++ ts₂ ∧ Completes irq c s ts₁ .returned s₁ ∧
      Completes irq k s₁ ts₂ r s' := by
  rcases h.seq_inv with hparts | ⟨_, hfirst⟩
  · exact hparts
  · have hreturned := hfirst.returned hc
    cases hreturned

/-! ## What holds at the end -/

/-- At the end the global invariant of a weakest precondition holds, and after a
return its postcondition. -/
theorem wp_post {I Q : σ → Prop} (h : Completes irq c s ts r s') (hw : wp irq I Q c s) :
    I s' ∧ (r = .returned → Q s') := by
  induction h with
  | done => exact ⟨hw.now.1, fun _ => hw.now.2⟩
  | halt => exact ⟨hw, fun hr => by cases hr⟩
  | act _ ih => exact ih hw.now.2
  | eval _ ih => exact ih hw.now.2
  | @irq d i _ _ _ _ hc _ ih =>
      apply ih
      cases d with
      | done => exact Always.irq hw i
      | halt => exact absurd rfl hc
      | act f next => exact Always.irq hw i
      | eval next => exact Always.irq hw i

/-- What the handler and every statement keep, an execution keeps. -/
theorem preserves {P : σ → Prop} (h : Completes irq c s ts r s') (hP : Stable irq P)
    (hc : c.Preserves P) (hs : P s) : P s' :=
  (h.wp_post (Triple.of_preserves hP (fun _ => id) hc s hs)).1

section Views

variable {α : Type*} {view : σ → α}

/-- A view that neither the handler nor the code changes. -/
theorem unchanged (h : Completes irq c s ts r s') (hirq : ∀ i s, view (irq i s) = view s)
    (hc : c.Keeps view) : view s' = view s :=
  h.preserves (P := fun t => view t = view s) (fun i t ht => (hirq i t).trans ht) (hc (view s)) rfl

/-- A view that the handler leaves alone ends as it would undisturbed. -/
theorem determined (h : Completes irq c s ts r s') (hirq : ∀ i s, view (irq i s) = view s)
    (hc : c.Determined view) (hst : view s = view t) : view s' = view (c.exec t) := by
  induction h generalizing t with
  | done => exact hst
  | halt => exact hst
  | act _ ih => exact ih hc.2 (hc.1 _ _ hst)
  | @eval next s _ _ _ _ ih =>
      rw [Code.exec_eval, ← hc.1 s t hst]
      exact ih (hc.2 s) hst
  | irq _ _ ih => exact ih hc ((hirq _ _).trans hst)

/-- So does the way the code ends. -/
theorem exit_determined (h : Completes irq c s ts r s') (hirq : ∀ i s, view (irq i s) = view s)
    (hc : c.Determined view) (hst : view s = view t) : r = c.exit t := by
  induction h generalizing t with
  | done => rfl
  | halt => rfl
  | act _ ih => exact ih hc.2 (hc.1 _ _ hst)
  | @eval next s _ _ _ _ ih =>
      rw [Code.exit, ← hc.1 s t hst]
      exact ih (hc.2 s) hst
  | irq _ _ ih => exact ih hc ((hirq _ _).trans hst)

/-- Executions of one code with the same turns, where the handler too takes equal
views to equal views. -/
theorem lockstep (h : Completes irq c s ts r s') (h' : Completes irq c t ts q t')
    (hirq : ∀ i s t, view s = view t → view (irq i s) = view (irq i t))
    (hc : c.Determined view) (hst : view s = view t) : view s' = view t' := by
  induction h generalizing t with
  | done =>
      cases h'
      exact hst
  | halt =>
      cases h'
      exact hst
  | act _ ih =>
      cases h' with
      | act h' => exact ih h' hc.2 (hc.1 _ _ hst)
  | @eval next s _ _ _ _ ih =>
      cases h' with
      | eval h' =>
          rw [← hc.1 s t hst] at h'
          exact ih h' (hc.2 s) hst
  | irq _ _ ih =>
      cases h' with
      | irq _ h' => exact ih h' hc (hirq _ _ _ hst)

/-- Two reads of the state with the same handler runs before them. -/
theorem eval_lockstep {P : σ → Prop} {next next' : σ → Code σ}
    (h : Completes irq (.eval next) s ts r s') (h' : Completes irq (.eval next') t ts q t')
    (hirq : ∀ i s t, view s = view t → view (irq i s) = view (irq i t))
    (hP : Stable irq P) (hs : P s) (hst : view s = view t) :
    ∃ s₁ t₁ us, P s₁ ∧ view s₁ = view t₁ ∧ Completes irq (next s₁) s₁ us r s' ∧
      Completes irq (next' t₁) t₁ us q t' := by
  generalize hd : Code.eval next = d at h
  induction h generalizing t with
  | done => cases hd
  | halt => cases hd
  | act _ _ => cases hd
  | @eval rest s _ ts _ h _ =>
      obtain rfl := Code.eval.inj hd
      cases h' with
      | eval h' => exact ⟨s, t, ts, hs, hst, h, h'⟩
  | irq _ _ ih =>
      cases h' with
      | irq _ h' => exact ih h' (hP _ _ hs) (hirq _ _ _ hst) hd

/-- Code that leaves a view alone leaves it to the handler. -/
theorem keeps {g : ι → α → α} (h : Completes irq c s ts r s')
    (hirq : ∀ i s, view (irq i s) = g i (view s)) (hc : c.Keeps view) :
    view s' = (handled ts).foldl (fun a i => g i a) (view s) := by
  induction h with
  | done => rfl
  | halt => rfl
  | @act f next s _ ts _ _ ih =>
      have hf : view (f s) = view s := (hc (view s)).1 s rfl
      rw [ih fun a => (hc a).2, hf]
      rfl
  | @eval next s _ _ _ _ ih => exact ih fun a => hc a s
  | @irq _ i s _ ts _ _ _ ih =>
      rw [ih hc, hirq]
      rfl

end Views

end Completes

/-- Run the code through some turns; the state in which it returns, if it returns
with the last one. -/
def execute (irq : ι → σ → σ) : List (Turn ι) → Code σ → σ → Option σ
  | [], .done, s => some s
  | .main :: ts, .act f next, s => execute irq ts next (f s)
  | .main :: ts, .eval next, s => execute irq ts (next s) s
  | .irq i :: ts, .done, s => execute irq ts .done (irq i s)
  | .irq i :: ts, .act f next, s => execute irq ts (.act f next) (irq i s)
  | .irq i :: ts, .eval next, s => execute irq ts (.eval next) (irq i s)
  | _, _, _ => none

theorem completes_of_execute {irq : ι → σ → σ} {ts : List (Turn ι)} {c : Code σ} {s s' : σ}
    (h : execute irq ts c s = some s') : Completes irq c s ts .returned s' := by
  induction ts generalizing c s with
  | nil =>
      cases c with
      | done =>
          obtain rfl : s = s' := Option.some.inj h
          exact .done
      | halt => cases h
      | act f next => cases h
      | eval next => cases h
  | cons t ts ih =>
      cases t with
      | main =>
          cases c with
          | done => cases h
          | halt => cases h
          | act f next => exact .act (ih h)
          | eval next => exact .eval (ih h)
      | irq i =>
          cases c with
          | done => exact .irq (by simp) (ih h)
          | halt => cases h
          | act f next => exact .irq (by simp) (ih h)
          | eval next => exact .irq (by simp) (ih h)

/-! ## Stages -/

/-- Executions of a list of programs, one after the other, with the turns of each. -/
inductive Staged (irq : ι → σ → σ) : List (Code σ) → σ → List (List (Turn ι)) → σ → Prop where
  | last {c : Code σ} {s s' : σ} {ts : List (Turn ι)} (h : Completes irq c s ts .returned s') :
      Staged irq [c] s [ts] s'
  | cons {c : Code σ} {cs : List (Code σ)} {s s₁ s' : σ} {ts : List (Turn ι)}
      {tss : List (List (Turn ι))} (h : Completes irq c s ts .returned s₁)
      (hrest : Staged irq cs s₁ tss s') : Staged irq (c :: cs) s (ts :: tss) s'

namespace Staged

variable {irq : ι → σ → σ} {cs : List (Code σ)} {s s' : σ} {ts : List (Turn ι)}
  {tss : List (List (Turn ι))}

/-- Stages in a row are an execution of their block. -/
theorem completes (h : Staged irq cs s tss s') :
    Completes irq (.block cs) s tss.flatten .returned s' := by
  induction h with
  | last h => simpa using h
  | @cons c cs s s₁ s' ts tss h _ ih =>
      have hne : Code.block cs ≠ .halt := by
        intro hhalt
        rw [hhalt] at ih
        have hreset := ih.reset trivial
        cases hreset
      exact h.seq hne ih

/-- An execution of a block that returns passes through its stages. -/
theorem of_completes (hcs : cs ≠ []) (h : Completes irq (.block cs) s ts .returned s') :
    ∃ tss, ts = tss.flatten ∧ Staged irq cs s tss s' := by
  induction cs generalizing s ts with
  | nil => exact absurd rfl hcs
  | cons c cs ih =>
      cases cs with
      | nil =>
          rw [Code.block_singleton] at h
          exact ⟨[ts], by simp, .last h⟩
      | cons d ds =>
          obtain ⟨ts₁, ts₂, s₁, rfl, h₁, h₂⟩ := h.seq_inv_returned
          obtain ⟨tss, rfl, hstaged⟩ := ih (by simp) h₂
          exact ⟨ts₁ :: tss, by simp, .cons h₁ hstaged⟩

/-- One list of turns a stage. -/
theorem length_eq (h : Staged irq cs s tss s') : tss.length = cs.length := by
  induction h with
  | last => rfl
  | cons _ _ ih => rw [List.length_cons, List.length_cons, ih]

/-- The first stage, and the others. -/
theorem cons_inv {c d : Code σ} (h : Staged irq (c :: d :: cs) s (ts :: tss) s') :
    ∃ s₁, Completes irq c s ts .returned s₁ ∧ Staged irq (d :: cs) s₁ tss s' := by
  cases h with
  | cons h hrest => exact ⟨_, h, hrest⟩

theorem last_inv {c : Code σ} (h : Staged irq [c] s [ts] s') :
    Completes irq c s ts .returned s' := by
  cases h with
  | last h => exact h
  | cons _ hrest => cases hrest

end Staged

/-- Run stages through their turns. -/
def executeStages (irq : ι → σ → σ) : List (Code σ) → List (List (Turn ι)) → σ → Option σ
  | [c], [ts], s => execute irq ts c s
  | c :: d :: cs, ts :: tss, s =>
      (execute irq ts c s).bind (executeStages irq (d :: cs) tss)
  | _, _, _ => none

theorem staged_of_execute {irq : ι → σ → σ} {cs : List (Code σ)} {tss : List (List (Turn ι))}
    {s s' : σ} (h : executeStages irq cs tss s = some s') : Staged irq cs s tss s' := by
  induction cs generalizing s tss with
  | nil => cases h
  | cons c cs ih =>
      cases tss with
      | nil => cases cs <;> cases h
      | cons ts tss =>
          cases cs with
          | nil =>
              cases tss with
              | nil => exact .last (completes_of_execute h)
              | cons _ _ => cases h
          | cons d cs =>
              obtain ⟨s₁, hfirst, hrest⟩ := Option.bind_eq_some_iff.mp h
              exact .cons (completes_of_execute hfirst) (ih hrest)

end Interruptible
