import Mathlib.Data.BitVec
import Mathlib.Tactic.Common

/-!
# A periodic task on a clock that rolls over

A polling loop runs a task when a period has passed since the time stamp of its last
run.  The clock and the stamp are machine words, so the elapsed time is a wrapped
difference.  It is the real one as long as the loop does not stall for about as long
as the clock takes to come around.

The clock is read once for the comparison and once more for the new stamp.

Main results:

- Theorem `due_iff`: the wrapped comparison is the real one.
- Theorem `Paced.due_iff`: in a paced loop every comparison is the real one.
- Theorem `since_lt`: after a poll the last run lies less than a period back.
-/

namespace PeriodicTask

variable {w period : ℕ}

/-- The two times at which a poll reads the clock. -/
structure Poll where
  now : ℕ
  stored : ℕ

/-- Whether the task is to run, on the words of the clock and of the stamp. -/
def due (period : ℕ) (clock stamp : BitVec w) : Bool :=
  period ≤ (clock - stamp).toNat

/-- The time of the last run after a poll. -/
def lastRun (period last : ℕ) (p : Poll) : ℕ :=
  if period ≤ p.now - last then p.stored else last

/-- A poll that follows another one, not so late that the clock comes around in
between. -/
structure Follows (w period : ℕ) (p q : Poll) : Prop where
  order : p.stored ≤ q.now
  reads : q.now ≤ q.stored
  pace : q.now + period ≤ p.now + 2 ^ w

/-- The wrapped comparison is the real one if less than a whole turn has passed. -/
theorem due_iff {now last : ℕ} (hle : last ≤ now) (hlt : now < last + 2 ^ w) :
    due period (BitVec.ofNat w now) (BitVec.ofNat w last) = true ↔ period ≤ now - last := by
  have hsum : BitVec.ofNat w now = BitVec.ofNat w (now - last) + BitVec.ofNat w last := by
    rw [← BitVec.ofNat_add, Nat.sub_add_cancel hle]
  have hdiff : (BitVec.ofNat w now - BitVec.ofNat w last).toNat = now - last := by
    rw [hsum, BitVec.add_sub_cancel, BitVec.toNat_ofNat, Nat.mod_eq_of_lt (by omega)]
  rw [due, decide_eq_true_eq, hdiff]

/-- What a loop knows after a poll: the last run is not in the future, and less than
a period back. -/
structure Recent (period last : ℕ) (p : Poll) : Prop where
  le : last ≤ p.stored
  lt : p.now < last + period

/-- In a paced loop every comparison is the real one. -/
theorem Follows.due_iff {p q : Poll} {last : ℕ} (hpq : Follows w period p q)
    (hp : Recent period last p) :
    due period (BitVec.ofNat w q.now) (BitVec.ofNat w last) = true ↔ period ≤ q.now - last := by
  have horder := hpq.order
  have hpace := hpq.pace
  have hle := hp.le
  have hlt := hp.lt
  exact PeriodicTask.due_iff (by omega) (by omega)

/-- After a poll the last run lies less than a period back. -/
theorem Follows.recent {p q : Poll} {last : ℕ} (hperiod : 0 < period)
    (hpq : Follows w period p q) (hp : Recent period last p) :
    Recent period (lastRun period last q) q := by
  have horder := hpq.order
  have hreads := hpq.reads
  have hle := hp.le
  unfold lastRun
  split
  · exact ⟨le_rfl, by omega⟩
  · exact ⟨by omega, by omega⟩

/-- Two runs are at least a period apart. -/
theorem lastRun_spaced {last : ℕ} {q : Poll} (hreads : q.now ≤ q.stored)
    (hdue : period ≤ q.now - last) (hperiod : 0 < period) : last + period ≤ q.stored := by
  omega

end PeriodicTask
