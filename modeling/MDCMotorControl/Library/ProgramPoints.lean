import MDCMotorControl.Library.BoundedResponse
import MDCMotorControl.Library.Executions

/-!
# Program points

What interrupts may do often depends on where the program stands: a store is harmless at
one statement and harmful between two others.  Such a condition is one on the events of a
run, and the invariant that it carries speaks about the code that remains as well as about
the state.

Code is made of plain statements, which keep such an invariant by themselves, and of marked
sections, which need a look at what comes in while they run.

Main results:

- Theorems `Sectioned.seq`, `Sectioned.branch` and `Sectioned.whenever`: what is made of
  sectioned code is sectioned.
- Theorem `System.run_along`: an invariant of the events so far and of the configuration.
- Theorem `System.run_sections`: an assertion along a run of sectioned code, from what the
  marked sections make of it.
- Theorem `System.run_through`: a loop whose body runs through a program point, where one
  assertion takes over from another.
-/

namespace Interruptible

universe u v w

variable {σ : Type u} {ι : Type v} {β : Type w}

/-- Code made of plain statements and of marked sections. -/
inductive Code.Sectioned (plain : (σ → σ) → Prop) (marked : Code σ → Prop) : Code σ → Prop
  | done : Sectioned plain marked .done
  | halt : Sectioned plain marked .halt
  | act {f : σ → σ} {next : Code σ} (hf : plain f) (hnext : Sectioned plain marked next) :
      Sectioned plain marked (.act f next)
  | eval {next : σ → Code σ} (hnext : ∀ s, Sectioned plain marked (next s)) :
      Sectioned plain marked (.eval next)
  | marked {c tail : Code σ} (hc : marked c) (htail : Sectioned plain marked tail) :
      Sectioned plain marked (c.seq tail)

namespace Code.Sectioned

variable {plain : (σ → σ) → Prop} {marked : Code σ → Prop} {c k : Code σ}

theorem seq (hc : c.Sectioned plain marked) (hk : k.Sectioned plain marked) :
    (c.seq k).Sectioned plain marked := by
  induction hc with
  | done => exact hk
  | halt => exact .halt
  | act hf _ ih => exact .act hf ih
  | eval _ ih => exact .eval ih
  | marked hsection _ ih =>
      rw [Code.seq_assoc]
      exact .marked hsection ih

theorem stmt {f : σ → σ} (hf : plain f) : (Code.stmt f).Sectioned plain marked :=
  .act hf .done

/-- Code that leaves a view alone is made of statements that do. -/
theorem of_keeps {α : Type*} {view : σ → α} (hc : c.Keeps view) :
    c.Sectioned (fun f => ∀ s, view (f s) = view s) marked := by
  induction c with
  | done => exact .done
  | halt => exact .halt
  | act f next ih => exact .act (fun s => (hc (view s)).1 s rfl) (ih fun a => (hc a).2)
  | eval next ih => exact .eval fun s => ih s fun a => hc a s

theorem block_cons {cs : List (Code σ)} (hc : c.Sectioned plain marked)
    (hcs : (Code.block cs).Sectioned plain marked) :
    (Code.block (c :: cs)).Sectioned plain marked :=
  hc.seq hcs

/-- Either branch may run into a section together with what follows. -/
theorem branch_seq {cond : σ → Bool} {yes no : Code σ}
    (hyes : (yes.seq k).Sectioned plain marked) (hno : (no.seq k).Sectioned plain marked) :
    ((Code.branch cond yes no).seq k).Sectioned plain marked := by
  refine .eval fun s => ?_
  show ((bif cond s then yes else no).seq k).Sectioned plain marked
  cases cond s with
  | false => exact hno
  | true => exact hyes

theorem branch {cond : σ → Bool} {yes no : Code σ} (hyes : yes.Sectioned plain marked)
    (hno : no.Sectioned plain marked) : (Code.branch cond yes no).Sectioned plain marked := by
  have hseq := @branch_seq _ plain marked .done cond yes no (hyes.seq .done) (hno.seq .done)
  rwa [Code.seq_done_right] at hseq

theorem whenever {cond : σ → Bool} {body : Code σ} (hbody : body.Sectioned plain marked) :
    (Code.whenever cond body).Sectioned plain marked :=
  hbody.branch .done

end Code.Sectioned

namespace System

variable {sys : System σ ι β} {c : Config σ}

/-- An invariant that may depend on the events so far, kept by the events of a run. -/
theorem run_along {J : List (Event ι β) → Config σ → Prop} {es : List (Event ι β)}
    (hstart : J [] c)
    (hstep : ∀ done e rest, es = done ++ e :: rest → J done (sys.run done c) →
      J (done ++ [e]) (sys.step e (sys.run done c)))
    {done rest : List (Event ι β)} (hsplit : es = done ++ rest) : J done (sys.run done c) := by
  induction done using List.reverseRecOn generalizing rest with
  | nil => exact hstart
  | append_singleton done e ih =>
      rw [List.append_assoc, List.singleton_append] at hsplit
      rw [run_concat]
      exact hstep done e rest hsplit (ih hsplit)

/-- An assertion that the handler and the plain statements keep holds along a run, except
inside of the marked sections, where `Inside` tells what does; it also covers bodies that
are not sectioned. -/
theorem run_sections {plain : (σ → σ) → Prop} {marked : Code σ → Prop} (P : σ → Prop)
    (Inside : List (Event ι β) → Config σ → Prop) {es : List (Event ι β)}
    (hirq : Stable sys.irq P) (hplain : ∀ f, plain f → ∀ s, P s → P (f s))
    (henter : ∀ done b s, P s →
      (sys.body b).Sectioned plain marked ∨ Inside (done ++ [.enter b]) ⟨sys.body b, s⟩)
    (hmarked : ∀ done e rest d tail, es = done ++ e :: rest → marked d →
      tail.Sectioned plain marked → (sys.run done c).code = d.seq tail →
      P (sys.run done c).state → P (sys.step e (sys.run done c)).state ∧
        (sys.step e (sys.run done c)).code.Sectioned plain marked ∨
          Inside (done ++ [e]) (sys.step e (sys.run done c)))
    (hinside : ∀ done e rest, es = done ++ e :: rest → Inside done (sys.run done c) →
      P (sys.step e (sys.run done c)).state ∧
        (sys.step e (sys.run done c)).code.Sectioned plain marked ∨
          Inside (done ++ [e]) (sys.step e (sys.run done c)))
    (hstart : P c.state ∧ c.code.Sectioned plain marked ∨ Inside [] c)
    {done rest : List (Event ι β)} (hsplit : es = done ++ rest) :
    P (sys.run done c).state ∧ (sys.run done c).code.Sectioned plain marked ∨
      Inside done (sys.run done c) := by
  refine run_along (J := fun done c => P c.state ∧ c.code.Sectioned plain marked ∨
    Inside done c) hstart ?_ hsplit
  rintro done e rest heq (⟨hP, hcode⟩ | hcode)
  · have hsection := fun d tail => hmarked done e rest d tail heq
    generalize sys.run done c = c' at hP hcode hsection
    obtain ⟨code, s⟩ := c'
    change code.Sectioned plain marked at hcode
    cases hcode with
    | done =>
        cases e with
        | main => exact .inl ⟨hP, .done⟩
        | irq i => exact .inl ⟨hirq i s hP, .done⟩
        | enter b => exact (henter done b s hP).imp (fun hbody => ⟨hP, hbody⟩) id
    | halt => rw [step_of_halt rfl]; exact .inl ⟨hP, .halt⟩
    | act hf hnext =>
        cases e with
        | main => exact .inl ⟨hplain _ hf s hP, hnext⟩
        | irq i => exact .inl ⟨hirq i s hP, .act hf hnext⟩
        | enter b => exact .inl ⟨hP, .act hf hnext⟩
    | eval hnext =>
        cases e with
        | main => exact .inl ⟨hP, hnext s⟩
        | irq i => exact .inl ⟨hirq i s hP, .eval hnext⟩
        | enter b => exact .inl ⟨hP, .eval hnext⟩
    | marked hd htail => exact hsection _ _ hd htail rfl hP
  · exact hinside done e rest heq hcode

/-- While the program waits before its end, the code that remains stays, and so does every
assertion that the handler keeps. -/
theorem step_of_waiting (sys : System σ ι β) {P : σ → Prop} (hP : Stable sys.irq P)
    (h : c.code ≠ .done) {e : Event ι β} (he : e ≠ .main) :
    (sys.step e c).code = c.code ∧ (P c.state → P (sys.step e c).state) := by
  rcases c with ⟨code, s⟩
  change code ≠ .done at h
  cases e with
  | main => exact absurd rfl he
  | irq i =>
      cases code with
      | done => exact absurd rfl h
      | halt => exact ⟨rfl, id⟩
      | act f next => exact ⟨rfl, hP i s⟩
      | eval next => exact ⟨rfl, hP i s⟩
  | enter b =>
      cases code with
      | done => exact absurd rfl h
      | halt => exact ⟨rfl, id⟩
      | act f next => exact ⟨rfl, id⟩
      | eval next => exact ⟨rfl, id⟩

/-- Without a step of the program, the code that remains stays. -/
theorem run_of_waiting (sys : System σ ι β) (h : c.code ≠ .done) {es : List (Event ι β)}
    (hes : programSteps es = 0) : (sys.run es c).code = c.code := by
  have hkeeps : Stable sys.irq fun _ => True := fun _ _ => id
  induction es generalizing c with
  | nil => rfl
  | cons e es ih =>
      have hwait : e ≠ .main ∧ programSteps es = 0 := by
        cases e with
        | main => cases hes
        | irq i => exact ⟨nofun, hes⟩
        | enter b => exact ⟨nofun, hes⟩
      have hcode := (step_of_waiting sys hkeeps h hwait.1).1
      exact (ih (by rwa [hcode]) hwait.2).trans hcode

/-- Code that has not returned runs in front of other code as it does by itself. -/
theorem step_seq (sys : System σ ι β) {d k : Code σ} (hd : d ≠ .done) (e : Event ι β) (s : σ) :
    sys.step e ⟨d.seq k, s⟩ =
      ⟨(sys.step e ⟨d, s⟩).code.seq k, (sys.step e ⟨d, s⟩).state⟩ := by
  cases d with
  | done => exact absurd rfl hd
  | halt => cases e <;> rfl
  | act f next => cases e <;> rfl
  | eval next => cases e <;> rfl

/-- Inside of a body, one event keeps a weakest precondition. -/
theorem step_wp_inside {I Q : σ → Prop} (h : c.code ≠ .done) (e : Event ι β)
    (hwp : wp sys.irq I Q c.code c.state) :
    wp sys.irq I Q (sys.step e c).code (sys.step e c).state := by
  cases e with
  | main => exact step_wp (fun b s hb => by cases hb) hwp
  | irq i => exact step_wp (fun b s hb => by cases hb) hwp
  | enter b =>
      rcases c with ⟨code, s⟩
      cases code with
      | done => exact absurd rfl h
      | halt => exact hwp
      | act f next => exact hwp
      | eval next => exact hwp

/-- One event before a program point, or at it: the code up to the point runs on, or the first
statement after the point is executed, where `R` turns into `Q`. -/
theorem step_to_point {I R Q : σ → Prop} {d rest : Code σ} {s : σ} {e : Event ι β}
    (hrest : rest ≠ .done) (hafter : Triple sys.irq Q Q rest Q)
    (hpoint : d = .done → e = .main → R s → Q s) (hd : wp sys.irq I R d s) :
    let c' := sys.step e ⟨d.seq rest, s⟩
    wp sys.irq Q Q c'.code c'.state ∨ ∃ d', c'.code = d'.seq rest ∧ wp sys.irq I R d' c'.state := by
  by_cases hdone : d = .done
  · subst hdone
    by_cases hmain : e = .main
    · subst hmain
      have hQ : Q s := hpoint rfl rfl (wp_returned hd rfl)
      exact .inl (step_wp_inside (c := ⟨rest, s⟩) hrest _ (hafter s hQ))
    · have hstable : Stable sys.irq (wp sys.irq I R .done) := fun i _ h => Always.irq h i
      obtain ⟨hwaits, hkeep⟩ :=
        step_of_waiting sys (c := ⟨(Code.done).seq rest, s⟩) hstable hrest hmain
      exact .inr ⟨.done, hwaits, hkeep hd⟩
  · rw [step_seq sys hdone]
    exact .inr ⟨_, rfl, step_wp_inside (c := ⟨d, s⟩) hdone e hd⟩

/-- A loop whose body runs through a program point: up to the point `I` holds, and what
is known at the point turns it into `Q`, which holds from then on. -/
theorem run_through {I P R Q : σ → Prop} {head : β → Code σ} {rest : Code σ}
    {es : List (Event ι β)} (hbody : ∀ b, sys.body b = (head b).seq rest) (hrest : rest ≠ .done)
    (hbefore : ∀ b, Triple sys.irq I P (head b) R)
    (hafter : Triple sys.irq Q Q rest Q) (hloop : ∀ b, Triple sys.irq Q Q (sys.body b) Q)
    (hpoint : ∀ done after, es = done ++ .main :: after → (sys.run done c).code = rest →
      R (sys.run done c).state → Q (sys.run done c).state)
    (hstart : wp sys.irq I P c.code c.state) : I (sys.run es c).state ∨ Q (sys.run es c).state := by
  have hinv : wp sys.irq Q Q (sys.run es c).code (sys.run es c).state ∨
      wp sys.irq I P (sys.run es c).code (sys.run es c).state ∨
      ∃ d, (sys.run es c).code = d.seq rest ∧ wp sys.irq I R d (sys.run es c).state := by
    refine run_along (J := fun _ c => wp sys.irq Q Q c.code c.state ∨
      wp sys.irq I P c.code c.state ∨ ∃ d, c.code = d.seq rest ∧ wp sys.irq I R d c.state)
      (.inr (.inl hstart)) ?_ (List.append_nil es).symm
    rintro done e after heq (hpast | hfirst | ⟨d, hcode, hd⟩)
    · exact .inl (step_wp (fun b s _ => hloop b s) hpast)
    · by_cases hdone : (sys.run done c).code = .done
      · generalize sys.run done c = c' at hdone hfirst
        obtain ⟨code, s⟩ := c'
        obtain rfl : code = .done := hdone
        cases e with
        | main => exact .inr (.inl hfirst)
        | irq i => exact .inr (.inl (Always.irq hfirst i))
        | enter b => exact .inr (.inr ⟨head b, hbody b, hbefore b s (wp_returned hfirst rfl)⟩)
      · exact .inr (.inl (step_wp_inside hdone e hfirst))
    · have hthrough := hpoint done after
      generalize sys.run done c = c' at hcode hd hthrough
      obtain ⟨code, s⟩ := c'
      obtain rfl : code = d.seq rest := hcode
      refine (step_to_point hrest hafter ?_ hd).imp id .inr
      rintro rfl rfl
      exact hthrough heq rfl
  rcases hinv with hpast | hfirst | ⟨d, -, hd⟩
  · exact .inr (wp_invariant hpast)
  · exact .inl (wp_invariant hfirst)
  · exact .inl (wp_invariant hd)

/-- A statement that waits in the course of a run to the end is executed later in it. -/
theorem exists_main {f : σ → σ} {next : Code σ} {es : List (Event ι β)}
    (h : c.code = .act f next) (hdone : (sys.run es c).code = .done) :
    ∃ during after, es = during ++ .main :: after ∧ ∀ e ∈ during, e ≠ .main := by
  induction es generalizing c with
  | nil =>
      rw [run_nil, h] at hdone
      cases hdone
  | cons e es ih =>
      by_cases he : e = .main
      · exact ⟨[], es, by rw [he, List.nil_append], fun _ hmem => by cases hmem⟩
      · have hwaits : c.code ≠ .done := by simp [h]
        have hkeeps : Stable sys.irq fun _ => True := fun _ _ => id
        have hcode : (sys.step e c).code = .act f next :=
          (step_of_waiting sys hkeeps hwaits he).1.trans h
        obtain ⟨during, after, hsplit, hwait⟩ := ih hcode hdone
        refine ⟨e :: during, after, by rw [hsplit, List.cons_append], fun a ha => ?_⟩
        rcases List.mem_cons.mp ha with rfl | ha
        · exact he
        · exact hwait a ha

end System

end Interruptible
