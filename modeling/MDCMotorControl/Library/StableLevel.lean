import Mathlib.Data.List.Infix
import Mathlib.Tactic.Common

/-!
# The last stable level of a sampled signal

A signal is sampled, and a level is stable once a window of consecutive samples
agrees on it.  The last stable level of a history is the value of the most recent
such window, or a given value before there is one.

A window that ends among the last samples reaches back over all of them when they
are fewer than its length.  This is why a short disturbance does not count.

Main results:

- Theorem `lastStable_of_window`: a window that has just ended decides the level.
- Theorem `lastStable_append_of_short`: a disturbance shorter than the window does
  not change the level.
-/

namespace StableLevel

variable {α : Type*} {n : ℕ} {initial a x y : α} {history : List α}

/-! ## Windows of equal samples -/

/-- No window of more than one sample ends at an edge. -/
theorem not_window_of_edge (hn : 2 ≤ n) (h : x ≠ y) :
    ¬ List.replicate n x <+: x :: y :: history := by
  obtain ⟨m, rfl⟩ : ∃ m, n = m + 2 := ⟨n - 2, by omega⟩
  intro hwindow
  have htail := (List.cons_prefix_cons.mp hwindow).2
  exact h (List.cons_prefix_cons.mp htail).1

/-- One more sample lengthens a window by one. -/
theorem window_succ_iff :
    List.replicate (n + 1) x <+: x :: history ↔ List.replicate n x <+: history := by
  rw [List.replicate_succ, List.cons_prefix_cons]
  simp

/-- A window contains every shorter one. -/
theorem window_mono {m : ℕ} (hm : m ≤ n) (h : List.replicate n x <+: history) :
    List.replicate m x <+: history := by
  refine List.IsPrefix.trans ⟨List.replicate (n - m) x, ?_⟩ h
  rw [← List.replicate_add, Nat.add_sub_cancel' hm]

/-! ## The level -/

variable [DecidableEq α]

/-- The common value of the most recent window of `n` equal samples, or the initial
value if there is none.  The history has its most recent sample first. -/
def lastStable (n : ℕ) (initial : α) : List α → α
  | [] => initial
  | x :: history =>
      if List.replicate n x <+: x :: history then x else lastStable n initial history

/-- A window that has just ended decides the level. -/
theorem lastStable_of_window (hn : 0 < n) (h : List.replicate n a <+: history) :
    lastStable n initial history = a := by
  cases history with
  | nil =>
      have hempty := List.prefix_nil.mp h
      rw [List.replicate_eq_nil_iff] at hempty
      omega
  | cons x history =>
      obtain ⟨m, rfl⟩ : ∃ m, n = m + 1 := ⟨n - 1, by omega⟩
      have hhead : a = x := (List.cons_prefix_cons.mp h).1
      subst hhead
      rw [lastStable, if_pos h]

/-- A sample that ends no window leaves the level. -/
theorem lastStable_cons_of_not_window (h : ¬ List.replicate n x <+: x :: history) :
    lastStable n initial (x :: history) = lastStable n initial history := by
  rw [lastStable, if_neg h]

/-- A level changes to the sample that ends a window. -/
theorem window_of_lastStable_ne
    (h : lastStable n initial (x :: history) ≠ lastStable n initial history) :
    lastStable n initial (x :: history) = x ∧ List.replicate n x <+: x :: history := by
  rw [lastStable] at h ⊢
  split
  · rename_i hwindow
    exact ⟨rfl, hwindow⟩
  · rename_i hwindow
    rw [if_neg hwindow] at h
    exact absurd rfl h

/-- A disturbance shorter than the window, of a signal that is at its stable level,
does not change the level. -/
theorem lastStable_append_of_short {disturbance : List α} (hshort : disturbance.length < n)
    (hhead : history.head? = some a) (hlevel : lastStable n initial history = a) :
    lastStable n initial (disturbance ++ history) = a := by
  induction disturbance with
  | nil => exact hlevel
  | cons x disturbance ih =>
      rw [List.cons_append, lastStable]
      split
      · -- the window reaches back to the sample before the disturbance
        rename_i hwindow
        obtain ⟨rest, hrest⟩ := hwindow
        have hx : (x :: (disturbance ++ history))[disturbance.length + 1]? = some x := by
          rw [← hrest, List.getElem?_append_left (by simpa using hshort)]
          exact List.getElem?_replicate_of_lt hshort
        rw [List.getElem?_cons_succ, List.getElem?_append_right (le_refl _), Nat.sub_self,
          ← List.head?_eq_getElem?, hhead] at hx
        exact (Option.some.inj hx).symm
      · exact ih (Nat.lt_of_succ_lt hshort)

end StableLevel
