import Mathlib.Data.Option.Basic
import Mathlib.Tactic.Common

/-!
# Monitors over a record of calls

A monitor reads the calls of a program one after the other.  In every phase it
accepts some calls and moves on to another phase; a record that contains a call
out of turn has no phase.  A record has its most recent call first, as a program
that conses onto its log writes it.

Main results:

- Theorem `after_append`: a record is read from the phase that its older part
  leads to.
- Theorem `mem_accepted`: every call of an accepted record was accepted in the
  phase that the calls before it led to.
- Theorem `after_between`: what no call of a stretch can leave holds all along the
  stretch.
-/

namespace Monitor

variable {φ α : Type*} {next : φ → α → Option φ} {initial phase : φ}

/-- The phase that a record leads to, most recent call first. -/
def after (next : φ → α → Option φ) (initial : φ) : List α → Option φ
  | [] => some initial
  | a :: earlier => (after next initial earlier).bind (next · a)

@[simp] theorem after_nil : after next initial [] = some initial := rfl

theorem after_cons (a : α) (earlier : List α) :
    after next initial (a :: earlier) = (after next initial earlier).bind (next · a) := rfl

/-- One more call, from a phase that accepts it. -/
theorem after_cons_of {a : α} {earlier : List α} {phase' : φ}
    (h : after next initial earlier = some phase) (hnext : next phase a = some phase') :
    after next initial (a :: earlier) = some phase' := by
  rw [after_cons, h, Option.bind_some, hnext]

/-- A record is read from the phase that its older part leads to. -/
theorem after_append (later earlier : List α) :
    after next initial (later ++ earlier) =
      (after next initial earlier).bind fun phase => after next phase later := by
  induction later with
  | nil => exact (Option.bind_fun_some _).symm
  | cons a later ih =>
      rw [List.cons_append, after_cons, ih]
      cases after next initial earlier with
      | none => rfl
      | some phase => rfl

/-- The older part of an accepted record is accepted. -/
theorem exists_after_of_append {later earlier : List α}
    (h : after next initial (later ++ earlier) = some phase) :
    ∃ before, after next initial earlier = some before ∧ after next before later = some phase := by
  rw [after_append] at h
  exact Option.bind_eq_some_iff.mp h

/-- Every call of an accepted record was accepted in the phase that the calls
before it led to. -/
theorem mem_accepted {later earlier : List α} {a : α}
    (h : after next initial (later ++ a :: earlier) = some phase) :
    ∃ before phase', after next initial earlier = some before ∧ next before a = some phase' ∧
      after next phase' later = some phase := by
  obtain ⟨phase', hphase', hlater⟩ := exists_after_of_append h
  obtain ⟨before, hbefore, hnext⟩ := Option.bind_eq_some_iff.mp hphase'
  exact ⟨before, phase', hbefore, hnext, hlater⟩

/-- What no call of a stretch can leave holds all along the stretch, so every call
of it was accepted in such a phase. -/
theorem after_between {S : φ → Prop} {stretch : List α}
    (hkeep : ∀ a ∈ stretch, ∀ before phase', S before → next before a = some phase' → S phase')
    (hinitial : S initial) (h : after next initial stretch = some phase) :
    S phase ∧ ∀ a ∈ stretch, ∃ before phase', S before ∧ next before a = some phase' := by
  induction stretch generalizing phase with
  | nil =>
      obtain rfl : initial = phase := Option.some.inj h
      exact ⟨hinitial, fun _ ha => nomatch ha⟩
  | cons a stretch ih =>
      obtain ⟨before, hbefore, hnext⟩ := Option.bind_eq_some_iff.mp h
      obtain ⟨hS, haccepted⟩ := ih (fun b hb => hkeep b (List.mem_cons_of_mem a hb)) hbefore
      refine ⟨hkeep a List.mem_cons_self before phase hS hnext, fun b hb => ?_⟩
      rcases List.mem_cons.mp hb with rfl | hb
      · exact ⟨before, phase, hS, hnext⟩
      · exact haccepted b hb

end Monitor
