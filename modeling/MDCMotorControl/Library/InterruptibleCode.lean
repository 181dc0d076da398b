import Mathlib.Data.List.Basic
import Mathlib.Tactic.Common

/-!
# Sequential code preempted by an atomic interrupt handler

A single processor runs one sequential program.  Between any two of its
statements an interrupt handler may run, to completion, any number of times.
This module gives that setting a small statement language, its step semantics,
and a weakest-precondition calculus whose assertions are stable under the
handler.

The program text is a finite tree: `act` performs one atomic statement, `eval`
reads the state once and continues with code chosen from what was read
(conditions and argument evaluation), `done` returns and `halt` is a processor
reset, after which neither the program nor the handler runs.  A `System` adds
the handler and a loop: whenever the code has returned, the next body is
entered, with an input that stands for what the environment supplied.

Main results:

- Theorem `System.run_wp`: a weakest precondition holds along every schedule.
- Theorem `System.run_invariant`: a loop whose bodies re-establish a stable
  assertion keeps it at every return, and its global invariant everywhere.
- Theorems `Triple.act`, `Triple.branch`, `Triple.seq` and
  `Triple.of_preserves`: the proof rules for preempted code.
- Theorems `Triple.determined` and `Triple.computes`: a view of the state that the
  handler leaves alone ends as it would undisturbed.
- Theorem `Triple.lift`: code over a component of the state.
-/

namespace Interruptible

universe u v w

variable {σ : Type u} {ι : Type v} {β : Type w}

/-! ## Code and its sequential composition -/

/-- Statement trees over a state.  Every node is one point at which the
interrupt handler may run before the node does. -/
inductive Code (σ : Type u) where
  | done
  | halt
  | act (f : σ → σ) (next : Code σ)
  | eval (next : σ → Code σ)

namespace Code

/-- Run the first program, and the second one when the first returns. -/
def seq : Code σ → Code σ → Code σ
  | done, k => k
  | halt, _ => halt
  | act f next, k => act f (next.seq k)
  | eval next, k => eval fun s => (next s).seq k

/-- One atomic statement. -/
def stmt (f : σ → σ) : Code σ :=
  act f done

/-- A conditional statement; its condition is read atomically. -/
def branch (c : σ → Bool) (yes no : Code σ) : Code σ :=
  eval fun s => bif c s then yes else no

/-- A conditional statement without an else branch. -/
def whenever (c : σ → Bool) (body : Code σ) : Code σ :=
  branch c body done

/-- Sequential composition of a list of programs. -/
def block : List (Code σ) → Code σ
  | [] => done
  | c :: cs => c.seq (block cs)

@[simp] theorem seq_done_left (k : Code σ) : done.seq k = k := rfl

@[simp] theorem seq_halt_left (k : Code σ) : halt.seq k = halt := rfl

@[simp] theorem seq_act (f : σ → σ) (next k : Code σ) :
    (act f next).seq k = act f (next.seq k) := rfl

@[simp] theorem seq_eval (next : σ → Code σ) (k : Code σ) :
    (eval next).seq k = eval fun s => (next s).seq k := rfl

@[simp] theorem seq_done_right (c : Code σ) : c.seq done = c := by
  induction c with
  | done => rfl
  | halt => rfl
  | act f next ih => rw [seq_act, ih]
  | eval next ih => exact congrArg eval (funext ih)

@[simp] theorem seq_stmt (f : σ → σ) (k : Code σ) : (stmt f).seq k = act f k := rfl

@[simp] theorem block_nil : block ([] : List (Code σ)) = done := rfl

@[simp] theorem block_cons (c : Code σ) (cs : List (Code σ)) :
    block (c :: cs) = c.seq (block cs) := rfl

/-- Whether the code has returned. -/
def returned : Code σ → Bool
  | done => true
  | _ => false

theorem returned_iff {c : Code σ} : c.returned = true ↔ c = done := by
  cases c <;> simp [returned]

theorem block_singleton (c : Code σ) : block [c] = c :=
  seq_done_right c

theorem seq_assoc (c k l : Code σ) : (c.seq k).seq l = c.seq (k.seq l) := by
  induction c with
  | done => rfl
  | halt => rfl
  | act f next ih => exact congrArg (act f) ih
  | eval next ih => exact congrArg eval (funext ih)

theorem block_append (cs ds : List (Code σ)) : block (cs ++ ds) = (block cs).seq (block ds) := by
  induction cs with
  | nil => rfl
  | cons c cs ih => rw [List.cons_append, block_cons, block_cons, ih, seq_assoc]

/-- Run to completion without interruption; a reset leaves the state where it
was reached. -/
def exec : Code σ → σ → σ
  | done, s => s
  | halt, s => s
  | act f next, s => next.exec (f s)
  | eval next, s => (next s).exec s

@[simp] theorem exec_done (s : σ) : done.exec s = s := rfl

@[simp] theorem exec_halt (s : σ) : halt.exec s = s := rfl

@[simp] theorem exec_act (f : σ → σ) (next : Code σ) (s : σ) :
    (act f next).exec s = next.exec (f s) := rfl

@[simp] theorem exec_eval (next : σ → Code σ) (s : σ) :
    (eval next).exec s = (next s).exec s := rfl

@[simp] theorem exec_stmt (f : σ → σ) (s : σ) : (stmt f).exec s = f s := rfl

theorem exec_branch (c : σ → Bool) (yes no : Code σ) (s : σ) :
    (branch c yes no).exec s = if c s then yes.exec s else no.exec s := by
  cases hcond : c s <;> simp [branch, hcond]

theorem exec_whenever (c : σ → Bool) (body : Code σ) (s : σ) :
    (whenever c body).exec s = if c s then body.exec s else s :=
  exec_branch c body done s

/-- The code contains no reset: it returns whichever way its conditions go. -/
def Returns : Code σ → Prop
  | done => True
  | halt => False
  | act _ next => next.Returns
  | eval next => ∀ s, (next s).Returns

theorem Returns.seq {c k : Code σ} (hc : c.Returns) (hk : k.Returns) : (c.seq k).Returns := by
  induction c with
  | done => exact hk
  | halt => exact hc.elim
  | act f next ih => exact ih hc
  | eval next ih => exact fun s => ih s (hc s)

theorem Returns.branch {c : σ → Bool} {yes no : Code σ} (hyes : yes.Returns)
    (hno : no.Returns) : (Code.branch c yes no).Returns := by
  intro s
  cases hcond : c s with
  | false => simpa [hcond] using hno
  | true => simpa [hcond] using hyes

theorem Returns.whenever {c : σ → Bool} {body : Code σ} (hbody : body.Returns) :
    (Code.whenever c body).Returns :=
  hbody.branch trivial

/-- Code without a reset passes its final state on. -/
theorem exec_seq {c : Code σ} (hc : c.Returns) (k : Code σ) (s : σ) :
    (c.seq k).exec s = k.exec (c.exec s) := by
  induction c generalizing s with
  | done => rfl
  | halt => exact hc.elim
  | act f next ih => exact ih hc (f s)
  | eval next ih => exact ih s (hc s) s

/-! ## Code over a component of the state -/

/-- Run code over a component of a larger state. -/
def lift {τ : Type u} (get : τ → σ) (put : σ → τ → τ) : Code σ → Code τ
  | done => done
  | halt => halt
  | act f next => act (fun t => put (f (get t)) t) (next.lift get put)
  | eval next => eval fun t => (next (get t)).lift get put

theorem lift_whenever {τ : Type u} {get : τ → σ} {put : σ → τ → τ} (c : σ → Bool)
    (body : Code σ) :
    (whenever c body).lift get put = whenever (fun t => c (get t)) (body.lift get put) := by
  refine congrArg Code.eval (funext fun t => ?_)
  show (bif c (get t) then body else done).lift get put =
    bif c (get t) then body.lift get put else done
  cases c (get t) <;> rfl

theorem Returns.lift {τ : Type u} {get : τ → σ} {put : σ → τ → τ} {c : Code σ}
    (hc : c.Returns) : (c.lift get put).Returns := by
  induction c with
  | done => trivial
  | halt => exact hc
  | act f next ih => exact ih hc
  | eval next ih => exact fun t => ih (get t) (hc (get t))

/-- An undisturbed run of code over a component changes the component as the code
does by itself. -/
theorem exec_lift {τ : Type u} {get : τ → σ} {put : σ → τ → τ}
    (hget : ∀ s t, get (put s t) = s) (hput : ∀ s s' t, put s' (put s t) = put s' t)
    (hself : ∀ t, put (get t) t = t) (c : Code σ) (t : τ) :
    (c.lift get put).exec t = put (c.exec (get t)) t := by
  induction c generalizing t with
  | done => exact (hself t).symm
  | halt => exact (hself t).symm
  | act f next ih =>
      calc
        (next.lift get put).exec (put (f (get t)) t) =
            put (next.exec (get (put (f (get t)) t))) (put (f (get t)) t) := ih _
        _ = put (next.exec (f (get t))) t := by rw [hget, hput]
  | eval next ih => exact ih (get t) t

/-- Every atomic statement of the code keeps the assertion, whichever way its
conditions go. -/
def Preserves (P : σ → Prop) : Code σ → Prop
  | done => True
  | halt => True
  | act f next => (∀ s, P s → P (f s)) ∧ next.Preserves P
  | eval next => ∀ s, (next s).Preserves P

theorem Preserves.seq {P : σ → Prop} {c k : Code σ}
    (hc : c.Preserves P) (hk : k.Preserves P) : (c.seq k).Preserves P := by
  induction c with
  | done => exact hk
  | halt => trivial
  | act f next ih => exact ⟨hc.1, ih hc.2⟩
  | eval next ih => exact fun s => ih s (hc s)

theorem Preserves.stmt {P : σ → Prop} {f : σ → σ} (hf : ∀ s, P s → P (f s)) :
    (Code.stmt f).Preserves P :=
  ⟨hf, trivial⟩

theorem Preserves.branch {P : σ → Prop} {c : σ → Bool} {yes no : Code σ}
    (hyes : yes.Preserves P) (hno : no.Preserves P) : (Code.branch c yes no).Preserves P := by
  intro s
  cases hcond : c s with
  | false => simpa [hcond] using hno
  | true => simpa [hcond] using hyes

theorem Preserves.whenever {P : σ → Prop} {c : σ → Bool} {body : Code σ}
    (hbody : body.Preserves P) : (Code.whenever c body).Preserves P :=
  hbody.branch trivial

theorem Preserves.block_nil {P : σ → Prop} : (Code.block []).Preserves P :=
  trivial

theorem Preserves.block_cons {P : σ → Prop} {c : Code σ} {cs : List (Code σ)}
    (hc : c.Preserves P) (hcs : (Code.block cs).Preserves P) :
    (Code.block (c :: cs)).Preserves P :=
  hc.seq hcs

theorem Preserves.block {P : σ → Prop} {cs : List (Code σ)}
    (hcs : ∀ c ∈ cs, c.Preserves P) : (Code.block cs).Preserves P := by
  induction cs with
  | nil => trivial
  | cons c cs ih =>
      exact (hcs c List.mem_cons_self).seq
        (ih fun d hd => hcs d (List.mem_cons_of_mem c hd))

theorem Preserves.pair {P : σ → Prop} {c k : Code σ} (hc : c.Preserves P)
    (hk : k.Preserves P) : (Code.block [c, k]).Preserves P :=
  .block_cons hc <| .block_cons hk .block_nil

/-- What every statement keeps, an undisturbed run keeps. -/
theorem Preserves.exec {P : σ → Prop} {c : Code σ} (hc : c.Preserves P) {s : σ} (hs : P s) :
    P (c.exec s) := by
  induction c generalizing s with
  | done => exact hs
  | halt => exact hs
  | act f next ih => exact ih hc.2 (hc.1 s hs)
  | eval next ih => exact ih s (hc s) hs

/-- What the code keeps of a component, the code over it keeps in the larger state. -/
theorem Preserves.lift {τ : Type u} {get : τ → σ} {put : σ → τ → τ} {P : σ → Prop}
    (hget : ∀ s t, get (put s t) = s) {c : Code σ} (hc : c.Preserves P) :
    (c.lift get put).Preserves fun t => P (get t) := by
  induction c with
  | done => trivial
  | halt => trivial
  | act f next ih =>
      refine ⟨fun t ht => ?_, ih hc.2⟩
      show P (get (put (f (get t)) t))
      rw [hget]
      exact hc.1 (get t) ht
  | eval next ih => exact fun t => ih (get t) (hc (get t))

/-- What survives every change of a component, code over the component keeps. -/
theorem Preserves.lift_of {τ : Type u} {get : τ → σ} {put : σ → τ → τ} {P : τ → Prop}
    (hput : ∀ s t, P t → P (put s t)) (c : Code σ) : (c.lift get put).Preserves P := by
  induction c with
  | done => trivial
  | halt => trivial
  | act f next ih => exact ⟨fun t => hput (f (get t)) t, ih⟩
  | eval next ih => exact fun t => ih (get t)

/-! ## Views of the state -/

variable {α : Type*} {view : σ → α}

/-- Every atomic statement leaves the view of the state as it is. -/
def Keeps (view : σ → α) (c : Code σ) : Prop :=
  ∀ a, c.Preserves fun s => view s = a

theorem Keeps.preserves {c : Code σ} (hc : c.Keeps view) (P : α → Prop) :
    c.Preserves fun s => P (view s) := by
  induction c with
  | done => trivial
  | halt => trivial
  | act f next ih =>
      refine ⟨fun s hs => ?_, ih fun a => (hc a).2⟩
      have hview : view (f s) = view s := (hc (view s)).1 s rfl
      show P (view (f s))
      rwa [hview]
  | eval next ih => exact fun s => ih s fun a => hc a s

theorem Keeps.seq {c k : Code σ} (hc : c.Keeps view) (hk : k.Keeps view) :
    (c.seq k).Keeps view :=
  fun a => (hc a).seq (hk a)

theorem Keeps.stmt {f : σ → σ} (hf : ∀ s, view (f s) = view s) : (Code.stmt f).Keeps view :=
  fun _ => .stmt fun s hs => (hf s).trans hs

theorem Keeps.branch {c : σ → Bool} {yes no : Code σ} (hyes : yes.Keeps view)
    (hno : no.Keeps view) : (Code.branch c yes no).Keeps view :=
  fun a => (hyes a).branch (hno a)

theorem Keeps.whenever {c : σ → Bool} {body : Code σ} (hbody : body.Keeps view) :
    (Code.whenever c body).Keeps view :=
  fun a => (hbody a).whenever

theorem Keeps.block_nil : (Code.block []).Keeps view :=
  fun _ => trivial

theorem Keeps.block_cons {c : Code σ} {cs : List (Code σ)} (hc : c.Keeps view)
    (hcs : (Code.block cs).Keeps view) : (Code.block (c :: cs)).Keeps view :=
  hc.seq hcs

theorem Keeps.pair {c k : Code σ} (hc : c.Keeps view) (hk : k.Keeps view) :
    (Code.block [c, k]).Keeps view :=
  fun a => .pair (hc a) (hk a)

/-- A conditional over two assignments. -/
theorem Keeps.whenever_pair {c : σ → Bool} {f g : σ → σ} (hf : ∀ s, view (f s) = view s)
    (hg : ∀ s, view (g s) = view s) :
    (Code.whenever c (.block [.stmt f, .stmt g])).Keeps view :=
  .whenever <| .pair (.stmt hf) (.stmt hg)

/-- If code over a component leaves a view of it alone, it leaves alone what
depends on that view and on the other components. -/
theorem Keeps.lift_of {τ : Type u} {get : τ → σ} {put : σ → τ → τ} {β : Type*} {part : σ → β}
    {view : τ → α} (hput : ∀ s t, part s = part (get t) → view (put s t) = view t)
    {c : Code σ} (hc : c.Keeps part) : (c.lift get put).Keeps view := by
  induction c with
  | done => exact fun _ => trivial
  | halt => exact fun _ => trivial
  | act f next ih =>
      have hf : ∀ s, part (f s) = part s := fun s => (hc (part s)).1 s rfl
      exact fun a => ⟨fun t ht => (hput _ t (hf (get t))).trans ht, ih (fun b => (hc b).2) a⟩
  | eval next ih => exact fun a t => ih (get t) (fun b => hc b (get t)) a

/-- Code over one component leaves every view of the others alone. -/
theorem Keeps.lift {τ : Type u} {get : τ → σ} {put : σ → τ → τ} {view : τ → α}
    (hput : ∀ s t, view (put s t) = view t) (c : Code σ) : (c.lift get put).Keeps view :=
  fun _ => .lift_of (fun s t ht => (hput s t).trans ht) c

/-- The statements change the view in a way that the view determines, and the
conditions read nothing else. -/
def Determined (view : σ → α) : Code σ → Prop
  | done => True
  | halt => True
  | act f next => (∀ s t, view s = view t → view (f s) = view (f t)) ∧ next.Determined view
  | eval next => (∀ s t, view s = view t → next s = next t) ∧ ∀ s, (next s).Determined view

theorem Determined.seq {c k : Code σ} (hc : c.Determined view) (hk : k.Determined view) :
    (c.seq k).Determined view := by
  induction c with
  | done => exact hk
  | halt => trivial
  | act f next ih => exact ⟨hc.1, ih hc.2⟩
  | eval next ih =>
      exact ⟨fun s t hst => congrArg (Code.seq · k) (hc.1 s t hst), fun s => ih s (hc.2 s)⟩

theorem Determined.stmt {f : σ → σ} (hf : ∀ s t, view s = view t → view (f s) = view (f t)) :
    (Code.stmt f).Determined view :=
  ⟨hf, trivial⟩

theorem Determined.stmt_of {f : σ → σ} (g : α → α) (hf : ∀ s, view (f s) = g (view s)) :
    (Code.stmt f).Determined view :=
  .stmt fun s t hst => by rw [hf, hf, hst]

theorem Determined.branch {c : σ → Bool} {yes no : Code σ}
    (hc : ∀ s t, view s = view t → c s = c t) (hyes : yes.Determined view)
    (hno : no.Determined view) : (Code.branch c yes no).Determined view := by
  refine ⟨fun s t hst => congrArg (bif · then yes else no) (hc s t hst), fun s => ?_⟩
  cases hcond : c s with
  | false => simpa [hcond] using hno
  | true => simpa [hcond] using hyes

theorem Determined.whenever {c : σ → Bool} {body : Code σ}
    (hc : ∀ s t, view s = view t → c s = c t) (hbody : body.Determined view) :
    (Code.whenever c body).Determined view :=
  hbody.branch hc trivial

/-- Code over a component that the view shows. -/
theorem Determined.lift {τ : Type u} {get : τ → σ} {put : σ → τ → τ} {view : τ → α}
    (hget : ∀ t t', view t = view t' → get t = get t')
    (hput : ∀ s t t', view t = view t' → view (put s t) = view (put s t')) (c : Code σ) :
    (c.lift get put).Determined view := by
  induction c with
  | done => trivial
  | halt => trivial
  | act f next ih =>
      refine ⟨fun t t' h => ?_, ih⟩
      show view (put (f (get t)) t) = view (put (f (get t')) t')
      rw [hget t t' h]
      exact hput _ t t' h
  | eval next ih =>
      exact ⟨fun t t' h => congrArg (fun s => (next s).lift get put) (hget t t' h),
        fun t => ih (get t)⟩

theorem Determined.block_nil : (Code.block []).Determined view :=
  trivial

theorem Determined.block_cons {c : Code σ} {cs : List (Code σ)} (hc : c.Determined view)
    (hcs : (Code.block cs).Determined view) : (Code.block (c :: cs)).Determined view :=
  hc.seq hcs

end Code

/-! ## Step semantics -/

/-- What the scheduler does next: let the program take a step, run the handler
on an input, or enter the loop body with an input. -/
inductive Event (ι : Type v) (β : Type w) where
  | main
  | irq (input : ι)
  | enter (input : β)
deriving DecidableEq

/-- An event that does not enter a new loop body. -/
def Event.isEnter : Event ι β → Bool
  | enter _ => true
  | _ => false

/-- The code that remains to be run, and the state. -/
structure Config (σ : Type u) where
  code : Code σ
  state : σ

/-- A loop preempted by an interrupt handler. -/
structure System (σ : Type u) (ι : Type v) (β : Type w) where
  irq : ι → σ → σ
  body : β → Code σ

namespace System

variable (sys : System σ ι β)

/-- One event.  A program step after a return waits; nothing happens after a
reset; the loop body is entered only when the previous one has returned. -/
def step : Event ι β → Config σ → Config σ
  | .main, ⟨.act f next, s⟩ => ⟨next, f s⟩
  | .main, ⟨.eval next, s⟩ => ⟨next s, s⟩
  | .main, ⟨.done, s⟩ => ⟨.done, s⟩
  | .enter b, ⟨.done, s⟩ => ⟨sys.body b, s⟩
  | .enter _, ⟨.act f next, s⟩ => ⟨.act f next, s⟩
  | .enter _, ⟨.eval next, s⟩ => ⟨.eval next, s⟩
  | _, ⟨.halt, s⟩ => ⟨.halt, s⟩
  | .irq i, ⟨.done, s⟩ => ⟨.done, sys.irq i s⟩
  | .irq i, ⟨.act f next, s⟩ => ⟨.act f next, sys.irq i s⟩
  | .irq i, ⟨.eval next, s⟩ => ⟨.eval next, sys.irq i s⟩

/-- A schedule, event by event. -/
def run : List (Event ι β) → Config σ → Config σ
  | [], c => c
  | e :: es, c => run es (sys.step e c)

@[simp] theorem run_nil (c : Config σ) : sys.run [] c = c := rfl

@[simp] theorem run_cons (e : Event ι β) (es : List (Event ι β)) (c : Config σ) :
    sys.run (e :: es) c = sys.run es (sys.step e c) := rfl

theorem run_append (es fs : List (Event ι β)) (c : Config σ) :
    sys.run (es ++ fs) c = sys.run fs (sys.run es c) := by
  induction es generalizing c with
  | nil => rfl
  | cons e es ih => exact ih (sys.step e c)

/-- The loop body is entered where the code before it has returned. -/
theorem run_enter {es fs : List (Event ι β)} {b : β} {c : Config σ}
    (h : (sys.run es c).code = .done) :
    sys.run (es ++ .enter b :: fs) c = sys.run fs ⟨sys.body b, (sys.run es c).state⟩ := by
  rw [run_append, run_cons]
  cases hc : sys.run es c with
  | mk code s =>
      rw [hc] at h
      obtain rfl : code = .done := h
      rfl

end System

/-! ## Assertions that survive the handler -/

/-- An assertion the handler cannot falsify. -/
def Stable (irq : ι → σ → σ) (P : σ → Prop) : Prop :=
  ∀ i s, P s → P (irq i s)

/-- The assertion holds now and after any number of handler runs. -/
def Always (irq : ι → σ → σ) (P : σ → Prop) (s : σ) : Prop :=
  ∀ inputs : List ι, P (inputs.foldl (fun t i => irq i t) s)

theorem Stable.and {irq : ι → σ → σ} {P Q : σ → Prop}
    (hP : Stable irq P) (hQ : Stable irq Q) : Stable irq fun s => P s ∧ Q s :=
  fun i s h => ⟨hP i s h.1, hQ i s h.2⟩

/-- A stable assertion holds always where it holds. -/
theorem Stable.always {irq : ι → σ → σ} {P Q : σ → Prop}
    (hP : Stable irq P) (hPQ : ∀ s, P s → Q s) {s : σ} (hs : P s) :
    Always irq Q s := by
  intro inputs
  apply hPQ
  induction inputs generalizing s with
  | nil => exact hs
  | cons i inputs ih => exact ih (hP i s hs)

theorem Always.now {irq : ι → σ → σ} {P : σ → Prop} {s : σ}
    (h : Always irq P s) : P s :=
  h []

theorem Always.irq {irq : ι → σ → σ} {P : σ → Prop} {s : σ}
    (h : Always irq P s) (i : ι) : Always irq P (irq i s) :=
  fun inputs => h (i :: inputs)

theorem Always.mono {irq : ι → σ → σ} {P Q : σ → Prop} {s : σ}
    (h : Always irq P s) (hPQ : ∀ t, P t → Q t) : Always irq Q s :=
  fun inputs => hPQ _ (h inputs)

/-! ## Weakest preconditions of preempted code -/

/-- From this state the code keeps `I` wherever it is interrupted, and returns
in `Q` and stays there.  After a reset only `I` is asked for. -/
def wp (irq : ι → σ → σ) (I Q : σ → Prop) : Code σ → σ → Prop
  | .done, s => Always irq (fun t => I t ∧ Q t) s
  | .halt, s => I s
  | .act f next, s => Always irq (fun t => I t ∧ wp irq I Q next (f t)) s
  | .eval next, s => Always irq (fun t => I t ∧ wp irq I Q (next t) t) s

section Soundness

variable {irq : ι → σ → σ} {I Q : σ → Prop}

/-- The global invariant holds wherever a weakest precondition does. -/
theorem wp_invariant {c : Code σ} {s : σ} (h : wp irq I Q c s) : I s := by
  cases c with
  | done => exact h.now.1
  | halt => exact h
  | act f next => exact h.now.1
  | eval next => exact h.now.1

/-- The postcondition holds where the code has returned. -/
theorem wp_returned {c : Code σ} {s : σ} (h : wp irq I Q c s) (hc : c = .done) : Q s := by
  subst hc
  exact h.now.2

/-- Undisturbed, code without a reset ends in the postcondition. -/
theorem wp_exec {c : Code σ} {s : σ} (h : wp irq I Q c s) (hc : c.Returns) : Q (c.exec s) := by
  induction c generalizing s with
  | done => exact h.now.2
  | halt => exact hc.elim
  | act f next ih => exact ih h.now.2 hc
  | eval next ih => exact ih s h.now.2 (hc s)

theorem wp_mono {J R : σ → Prop} (hI : ∀ s, I s → J s) (hQ : ∀ s, Q s → R s)
    {c : Code σ} {s : σ} (h : wp irq I Q c s) : wp irq J R c s := by
  induction c generalizing s with
  | done => exact h.mono fun t ht => ⟨hI t ht.1, hQ t ht.2⟩
  | halt => exact hI s h
  | act f next ih => exact h.mono fun t ht => ⟨hI t ht.1, ih ht.2⟩
  | eval next ih => exact h.mono fun t ht => ⟨hI t ht.1, ih t ht.2⟩

theorem wp_and {J R : σ → Prop} {c : Code σ} {s : σ} (h : wp irq I Q c s) (h' : wp irq J R c s) :
    wp irq (fun t => I t ∧ J t) (fun t => Q t ∧ R t) c s := by
  induction c generalizing s with
  | done => exact fun inputs => ⟨⟨(h inputs).1, (h' inputs).1⟩, (h inputs).2, (h' inputs).2⟩
  | halt => exact ⟨h, h'⟩
  | act f next ih =>
      exact fun inputs => ⟨⟨(h inputs).1, (h' inputs).1⟩, ih (h inputs).2 (h' inputs).2⟩
  | eval next ih =>
      exact fun inputs => ⟨⟨(h inputs).1, (h' inputs).1⟩, ih _ (h inputs).2 (h' inputs).2⟩

theorem wp_seq {c k : Code σ} {s : σ}
    (h : wp irq I (wp irq I Q k) c s) : wp irq I Q (c.seq k) s := by
  induction c generalizing s with
  | done => exact h.now.2
  | halt => exact h
  | act f next ih => exact h.mono fun t ht => ⟨ht.1, ih ht.2⟩
  | eval next ih => exact h.mono fun t ht => ⟨ht.1, ih t ht.2⟩

namespace System

variable {sys : System σ ι β}

/-- One event keeps the weakest precondition, if entering the body does. -/
theorem step_wp {e : Event ι β} {c : Config σ}
    (henter : ∀ b s, e = .enter b → Q s → wp sys.irq I Q (sys.body b) s)
    (h : wp sys.irq I Q c.code c.state) :
    wp sys.irq I Q (sys.step e c).code (sys.step e c).state := by
  rcases c with ⟨code, s⟩
  cases e with
  | main =>
      cases code with
      | done => exact h
      | halt => exact h
      | act f next => exact h.now.2
      | eval next => exact h.now.2
  | irq i =>
      cases code with
      | done => exact Always.irq h i
      | halt => exact h
      | act f next => exact Always.irq h i
      | eval next => exact Always.irq h i
  | enter b =>
      cases code with
      | done => exact henter b s rfl h.now.2
      | halt => exact h
      | act f next => exact h
      | eval next => exact h

/-- Along a run whose bodies have the loop assertion as their postcondition, the code
that remains has it too. -/
theorem run_invariant_of {es : List (Event ι β)} {c : Config σ}
    (hbody : ∀ b, .enter b ∈ es → ∀ s, Q s → wp sys.irq I Q (sys.body b) s)
    (h : wp sys.irq I Q c.code c.state) :
    wp sys.irq I Q (sys.run es c).code (sys.run es c).state := by
  induction es generalizing c with
  | nil => exact h
  | cons e es ih =>
      refine ih (fun b hb => hbody b (List.mem_cons_of_mem e hb)) (step_wp ?_ h)
      rintro b s rfl
      exact hbody b List.mem_cons_self s

/-- Within one body, a weakest precondition holds along every schedule. -/
theorem run_wp {es : List (Event ι β)} {c : Config σ}
    (hes : ∀ e ∈ es, e.isEnter = false)
    (h : wp sys.irq I Q c.code c.state) :
    wp sys.irq I Q (sys.run es c).code (sys.run es c).state := by
  refine run_invariant_of (fun b hb => ?_) h
  have henter := hes (.enter b) hb
  cases henter

/-- Where a loop body has been entered and has returned, its postcondition holds. -/
theorem body_returned {es fs : List (Event ι β)} {b : β} {c : Config σ}
    (hready : (sys.run es c).code = .done) (hfs : ∀ e ∈ fs, e.isEnter = false)
    (hreturned : (sys.run (es ++ .enter b :: fs) c).code = .done)
    (hbody : wp sys.irq I Q (sys.body b) (sys.run es c).state) :
    Q (sys.run (es ++ .enter b :: fs) c).state := by
  rw [run_enter sys hready] at hreturned ⊢
  exact wp_returned (run_wp hfs hbody) hreturned

/-- Whatever the handler and every statement keep, a run keeps; and every statement
of the code that remains keeps it. -/
theorem run_preserves {P : σ → Prop} (hP : Stable sys.irq P)
    (hbody : ∀ b, (sys.body b).Preserves P) {c : Config σ} (hc : c.code.Preserves P)
    (es : List (Event ι β)) :
    (sys.run es c).code.Preserves P ∧ (P c.state → P (sys.run es c).state) := by
  induction es generalizing c with
  | nil => exact ⟨hc, id⟩
  | cons e es ih =>
      have hstep : (sys.step e c).code.Preserves P ∧ (P c.state → P (sys.step e c).state) := by
        rcases c with ⟨code, s⟩
        cases e with
        | main =>
            cases code with
            | done => exact ⟨hc, id⟩
            | halt => exact ⟨hc, id⟩
            | act f next => exact ⟨hc.2, hc.1 s⟩
            | eval next => exact ⟨hc s, id⟩
        | irq i =>
            cases code with
            | done => exact ⟨hc, hP i s⟩
            | halt => exact ⟨hc, id⟩
            | act f next => exact ⟨hc, hP i s⟩
            | eval next => exact ⟨hc, hP i s⟩
        | enter b =>
            cases code with
            | done => exact ⟨hbody b, id⟩
            | halt => exact ⟨hc, id⟩
            | act f next => exact ⟨hc, id⟩
            | eval next => exact ⟨hc, id⟩
      obtain ⟨hcode, hstate⟩ := ih hstep.1
      exact ⟨hcode, fun hs => hstate (hstep.2 hs)⟩

/-- Along every run of the loop, the code that remains has the loop assertion
as its postcondition. -/
theorem run_invariant (hbody : ∀ b s, Q s → wp sys.irq I Q (sys.body b) s)
    {c : Config σ} (h : wp sys.irq I Q c.code c.state) (es : List (Event ι β)) :
    wp sys.irq I Q (sys.run es c).code (sys.run es c).state :=
  run_invariant_of (fun b _ => hbody b) h

end System

end Soundness

/-! ## Proof rules -/

/-- Every run of the code from `P` keeps `I` and returns in `Q`. -/
def Triple (irq : ι → σ → σ) (I P : σ → Prop) (c : Code σ) (Q : σ → Prop) : Prop :=
  ∀ s, P s → wp irq I Q c s

namespace Triple

variable {irq : ι → σ → σ} {I P Q R : σ → Prop}

theorem conseq {P' Q' : σ → Prop} {c : Code σ} (h : Triple irq I P' c Q')
    (hP : ∀ s, P s → P' s) (hQ : ∀ s, Q' s → Q s) : Triple irq I P c Q :=
  fun s hs => wp_mono (fun _ => id) hQ (h s (hP s hs))

/-- Two postconditions of one piece of code. -/
theorem and {P' Q' : σ → Prop} {c : Code σ} (h : Triple irq I P c Q) (h' : Triple irq I P' c Q') :
    Triple irq I (fun s => P s ∧ P' s) c fun s => Q s ∧ Q' s :=
  fun s hs => wp_mono (fun _ ht => ht.1) (fun _ => id) (wp_and (h s hs.1) (h' s hs.2))

theorem done (hP : Stable irq P) (hI : ∀ s, P s → I s) (hQ : ∀ s, P s → Q s) :
    Triple irq I P .done Q :=
  fun _ hs => hP.always (fun t ht => ⟨hI t ht, hQ t ht⟩) hs

theorem halt (hI : ∀ s, P s → I s) : Triple irq I P .halt Q :=
  fun s hs => hI s hs

/-- An atomic statement, from a stable precondition. -/
theorem act {f : σ → σ} {next : Code σ} (hP : Stable irq P)
    (hI : ∀ s, P s → I s) (hf : ∀ s, P s → R (f s))
    (hnext : Triple irq I R next Q) : Triple irq I P (.act f next) Q :=
  fun _ hs => hP.always (fun t ht => ⟨hI t ht, hnext (f t) (hf t ht)⟩) hs

/-- One read of the state.  The assertion the chosen code starts from may
depend on the value read. -/
theorem eval {next : σ → Code σ} (hP : Stable irq P) (hI : ∀ s, P s → I s)
    (hnext : ∀ s, P s → wp irq I Q (next s) s) : Triple irq I P (.eval next) Q :=
  fun _ hs => hP.always (fun t ht => ⟨hI t ht, hnext t ht⟩) hs

theorem seq {c k : Code σ} (hc : Triple irq I P c R) (hk : Triple irq I R k Q) :
    Triple irq I P (c.seq k) Q :=
  fun s hs => wp_seq (wp_mono (fun _ => id) hk (hc s hs))

theorem stmt {f : σ → σ} (hP : Stable irq P) (hI : ∀ s, P s → I s)
    (hQ : Stable irq Q) (hQI : ∀ s, Q s → I s) (hf : ∀ s, P s → Q (f s)) :
    Triple irq I P (Code.stmt f) Q :=
  act hP hI hf (done hQ hQI fun _ => id)

/-- A conditional: each branch runs from what the condition adds. -/
theorem branch {c : σ → Bool} {yes no : Code σ} (hP : Stable irq P)
    (hI : ∀ s, P s → I s) (hyes : ∀ s, P s → c s = true → wp irq I Q yes s)
    (hno : ∀ s, P s → c s = false → wp irq I Q no s) :
    Triple irq I P (Code.branch c yes no) Q := by
  refine eval hP hI fun s hs => ?_
  cases hcond : c s with
  | false => exact hno s hs hcond
  | true => exact hyes s hs hcond

/-- A conditional without an else branch. -/
theorem whenever {c : σ → Bool} {body : Code σ} (hP : Stable irq P)
    (hI : ∀ s, P s → I s) (hQ : Stable irq Q) (hQI : ∀ s, Q s → I s)
    (hthen : ∀ s, P s → c s = true → wp irq I Q body s)
    (helse : ∀ s, P s → c s = false → Q s) :
    Triple irq I P (Code.whenever c body) Q :=
  branch hP hI hthen fun s hs hcond =>
    done hQ hQI (fun _ => id) s (helse s hs hcond)

/-- Frame rule: code whose every statement keeps a stable assertion keeps it
under preemption. -/
theorem of_preserves {c : Code σ} (hP : Stable irq P) (hI : ∀ s, P s → I s)
    (hc : c.Preserves P) : Triple irq I P c P := by
  induction c with
  | done => exact done hP hI fun _ => id
  | halt => exact halt hI
  | act f next ih => exact act hP hI hc.1 (ih hc.2)
  | eval next ih => exact eval hP hI fun s hs => ih s (hc s) s hs

/-- A view that the handler leaves alone ends as it would undisturbed. -/
theorem determined {α : Type*} {view : σ → α} {c : Code σ}
    (hirq : ∀ i s, view (irq i s) = view s) (hc : c.Determined view) (s₀ : σ) :
    Triple irq (fun _ => True) (fun s => view s = view s₀) c
      (fun s => view s = view (c.exec s₀)) := by
  have hstable : ∀ a, Stable irq fun s => view s = a :=
    fun a i s hs => (hirq i s).trans hs
  induction c generalizing s₀ with
  | done => exact done (hstable _) (fun _ _ => trivial) fun _ => id
  | halt => exact halt fun _ _ => trivial
  | act f next ih =>
      exact act (hstable _) (fun _ _ => trivial) (fun s hs => hc.1 s s₀ hs) (ih hc.2 (f s₀))
  | eval next ih =>
      refine eval (hstable _) (fun _ _ => trivial) fun s hs => ?_
      rw [hc.1 s s₀ hs]
      exact ih s₀ (hc.2 s₀) s₀ s hs

/-- If undisturbed code computes a function of such a view, preempted code
computes it too. -/
theorem computes {α : Type*} {view : σ → α} {c : Code σ} {g : α → α}
    (hirq : ∀ i s, view (irq i s) = view s) (hc : c.Determined view)
    (hexec : ∀ s, view (c.exec s) = g (view s)) (a : α) :
    Triple irq (fun _ => True) (fun s => view s = a) c (fun s => view s = g a) := by
  rintro s rfl
  rw [← hexec s]
  exact determined hirq hc s s rfl

/-- Preempted code takes one assertion about such a view to another if undisturbed
code does. -/
theorem of_exec {α : Type*} {view : σ → α} {c : Code σ} {P Q : α → Prop}
    (hirq : ∀ i s, view (irq i s) = view s) (hc : c.Determined view)
    (hexec : ∀ s, P (view s) → Q (view (c.exec s))) :
    Triple irq (fun _ => True) (fun s => P (view s)) c (fun s => Q (view s)) := by
  intro s hs
  refine wp_mono (fun _ => id) (fun t ht => ?_) (determined hirq hc s s rfl)
  rw [ht]
  exact hexec s hs

/-- Code that leaves such a view alone keeps its value. -/
theorem keeps {α : Type*} {view : σ → α} {c : Code σ}
    (hirq : ∀ i s, view (irq i s) = view s) (hc : c.Keeps view) (a : α) :
    Triple irq (fun _ => True) (fun s => view s = a) c (fun s => view s = a) :=
  of_preserves (fun i s hs => (hirq i s).trans hs) (fun _ _ => trivial) (hc a)

/-- Code that runs where the handler does nothing ends as it would undisturbed. -/
theorem exec_of_fixed {F : σ → Prop} {c : Code σ} (hirq : ∀ i s, F s → irq i s = s)
    (hc : c.Preserves F) {s₀ : σ} (hs₀ : F s₀) :
    Triple irq F (fun s => s = s₀) c (fun s => s = c.exec s₀) := by
  have hstable : ∀ s₁, F s₁ → Stable irq fun s => s = s₁ := by
    rintro s₁ hs₁ i s rfl
    exact hirq i s hs₁
  induction c generalizing s₀ with
  | done => exact done (hstable s₀ hs₀) (fun _ hs => hs ▸ hs₀) fun _ => id
  | halt => exact halt fun _ hs => hs ▸ hs₀
  | act f next ih =>
      refine act (R := fun s => s = f s₀) (hstable s₀ hs₀) (fun _ hs => hs ▸ hs₀) ?_
        (ih hc.2 (hc.1 s₀ hs₀))
      rintro s rfl
      rfl
  | eval next ih =>
      refine eval (hstable s₀ hs₀) (fun _ hs => hs ▸ hs₀) ?_
      rintro s rfl
      exact ih s (hc s) hs₀ s rfl

end Triple

/-! ## Code over a component under preemption -/

section Lift

variable {τ : Type u} {κ : Type*} {get : τ → σ} {put : σ → τ → τ} {irq : ι → σ → σ}
  {irq' : κ → τ → τ} {I P Q : σ → Prop} {R : τ → Prop}

theorem Always.lift (hirq : ∀ k t, ∃ i, get (irq' k t) = irq i (get t))
    (hR : Stable irq' R) {t : τ} (h : Always irq P (get t)) (ht : R t) :
    Always irq' (fun t => P (get t) ∧ R t) t := by
  intro inputs
  induction inputs generalizing t with
  | nil => exact ⟨h.now, ht⟩
  | cons k inputs ih =>
      obtain ⟨i, hi⟩ := hirq k t
      exact ih (hi ▸ h.irq i) (hR k t ht)

/-- Code over a component runs in the larger state as it does by itself, and
keeps what depends on the other components only. -/
theorem wp_lift (hget : ∀ s t, get (put s t) = s)
    (hirq : ∀ k t, ∃ i, get (irq' k t) = irq i (get t)) (hR : Stable irq' R)
    (hput : ∀ s t, R t → R (put s t)) {c : Code σ} {t : τ} (h : wp irq I Q c (get t))
    (ht : R t) :
    wp irq' (fun t => I (get t) ∧ R t) (fun t => Q (get t) ∧ R t) (c.lift get put) t := by
  induction c generalizing t with
  | done =>
      exact (Always.lift hirq hR h ht).mono fun t ht => ⟨⟨ht.1.1, ht.2⟩, ht.1.2, ht.2⟩
  | halt => exact ⟨h, ht⟩
  | act f next ih =>
      refine (Always.lift hirq hR h ht).mono fun t ht => ⟨⟨ht.1.1, ht.2⟩, ih ?_ (hput _ t ht.2)⟩
      rw [hget]
      exact ht.1.2
  | eval next ih =>
      exact (Always.lift hirq hR h ht).mono fun t ht => ⟨⟨ht.1.1, ht.2⟩, ih _ ht.1.2 ht.2⟩

theorem Triple.lift (hget : ∀ s t, get (put s t) = s)
    (hirq : ∀ k t, ∃ i, get (irq' k t) = irq i (get t)) (hR : Stable irq' R)
    (hput : ∀ s t, R t → R (put s t)) {c : Code σ} (h : Triple irq I P c Q) :
    Triple irq' (fun t => I (get t) ∧ R t) (fun t => P (get t) ∧ R t) (c.lift get put)
      (fun t => Q (get t) ∧ R t) :=
  fun t ht => wp_lift hget hirq hR hput (h (get t) ht.1) ht.2

end Lift

end Interruptible
