import Mathlib.Data.List.FinRange
import Mathlib.Logic.Function.Basic
import Mathlib.Order.WellFounded
import Mathlib.Tactic.Common

/-!
# Rewriting an erasable sector

A sector of `n` words is rewritten by one erase and one program operation a
word, in address order.  Every operation completes, fails and is reported, or
is cut off by a reset before it has an effect; the rewrite stops at the first
operation that does not complete.

Main results:

- Theorems `rewrite_of_not_erased`, `rewrite_of_first` and
  `rewrite_of_completed`: a rewrite leaves the old contents, the image up to the
  first operation that fell short, or the new data.
- Theorem `rewrite_completed`: it reports completion in the last case only.
-/

namespace FlashSector

variable {n : ℕ} {W : Type*}

/-- The outcome of one operation, or of a rewrite: it completed, it failed, or
a reset came first. -/
inductive Outcome where
  | completed
  | failed
  | cut
deriving DecidableEq, Repr

/-- The outcomes of the operations of one rewrite. -/
structure Outcomes (n : ℕ) where
  erase : Outcome
  program : Fin n → Outcome

/-- Program the listed words, stopping at the first that does not complete. -/
def programWords (program : Fin n → Outcome) (data : Fin n → W) :
    List (Fin n) → (Fin n → W) → (Fin n → W) × Outcome
  | [], sector => (sector, .completed)
  | i :: rest, sector =>
      match program i with
      | .completed => programWords program data rest (Function.update sector i (data i))
      | .failed => (sector, .failed)
      | .cut => (sector, .cut)

/-- Erase the sector and program all its words. -/
def rewrite (erased : W) (ops : Outcomes n) (data sector : Fin n → W) :
    (Fin n → W) × Outcome :=
  match ops.erase with
  | .completed => programWords ops.program data (List.finRange n) fun _ => erased
  | .failed => (sector, .failed)
  | .cut => (sector, .cut)

/-- The words of the data before word `k`, the others erased. -/
def partialImage (erased : W) (data : Fin n → W) (k : Fin n) : Fin n → W :=
  fun i => if i < k then data i else erased

/-- The words programmed are the ones before the first operation that does not
complete. -/
theorem programWords_apply (program : Fin n → Outcome) (data : Fin n → W)
    (l : List (Fin n)) (sector : Fin n → W) (i : Fin n) :
    (programWords program data l sector).1 i =
      if i ∈ l.takeWhile (program · = .completed) then data i else sector i := by
  induction l generalizing sector with
  | nil => simp [programWords]
  | cons j rest ih =>
      cases hj : program j with
      | completed =>
          simp only [programWords, hj, ih, List.takeWhile_cons, decide_true, if_true,
            List.mem_cons]
          by_cases hij : i = j
          · subst hij
            simp
          · simp [hij]
      | failed => simp [programWords, hj]
      | cut => simp [programWords, hj]

/-- Programming completes exactly when every operation does. -/
theorem programWords_completed (program : Fin n → Outcome) (data : Fin n → W)
    (l : List (Fin n)) (sector : Fin n → W) :
    (programWords program data l sector).2 = .completed ↔
      ∀ i ∈ l, program i = .completed := by
  induction l generalizing sector with
  | nil => simp [programWords]
  | cons j rest ih =>
      cases hj : program j with
      | completed => simp [programWords, hj, ih]
      | failed => simp [programWords, hj]
      | cut => simp [programWords, hj]

/-- In an ascending list, the elements of the longest prefix with a property are
the ones with no exception at or below them. -/
theorem mem_takeWhile_of_pairwise {l : List (Fin n)} (hl : l.Pairwise (· < ·))
    (p : Fin n → Bool) (i : Fin n) :
    i ∈ l.takeWhile p ↔ i ∈ l ∧ ∀ j ∈ l, j ≤ i → p j = true := by
  induction l with
  | nil => simp
  | cons a rest ih =>
      obtain ⟨hlt, hrest⟩ := List.pairwise_cons.mp hl
      cases ha : p a with
      | false =>
          have hle : i ∈ a :: rest → a ≤ i := by
            intro hi
            rcases List.mem_cons.mp hi with rfl | hi
            · exact le_rfl
            · exact (hlt i hi).le
          simp only [List.takeWhile_cons, ha, Bool.false_eq_true, if_false, List.not_mem_nil,
            false_iff, not_and]
          intro hi hall
          have := hall a List.mem_cons_self (hle hi)
          simp [ha] at this
      | true =>
          simp only [List.takeWhile_cons, ha, if_true, List.mem_cons, ih hrest,
            forall_eq_or_imp]
          constructor
          · rintro (rfl | ⟨hi, hall⟩)
            · exact ⟨.inl rfl, fun _ => trivial, fun j hj hji => absurd (hlt j hj) (not_lt.mpr hji)⟩
            · exact ⟨.inr hi, fun _ => trivial, hall⟩
          · rintro ⟨rfl | hi, -, hall⟩
            · exact .inl rfl
            · exact .inr ⟨hi, hall⟩

/-- Either all operations complete, or there is a first one that does not. -/
theorem completed_or_first (program : Fin n → Outcome) :
    (∀ i, program i = .completed) ∨
      ∃ k, (∀ i < k, program i = .completed) ∧ program k ≠ .completed := by
  by_cases hall : ∀ i, program i = .completed
  · exact .inl hall
  · rw [not_forall] at hall
    obtain ⟨k, hk, hmin⟩ := wellFounded_lt.has_min {k | program k ≠ .completed} hall
    refine .inr ⟨k, fun i hi => ?_, hk⟩
    by_contra hne
    exact hmin i hne hi

/-! ## What a rewrite leaves behind -/

/-- A rewrite completes exactly when every operation does. -/
theorem rewrite_completed (erased : W) (ops : Outcomes n) (data sector : Fin n → W) :
    (rewrite erased ops data sector).2 = .completed ↔
      ops.erase = .completed ∧ ∀ i, ops.program i = .completed := by
  unfold rewrite
  cases herase : ops.erase with
  | completed => simp [programWords_completed]
  | failed => simp
  | cut => simp

/-- Without a completed erase the sector is untouched. -/
theorem rewrite_of_not_erased {erased : W} {ops : Outcomes n} {data sector : Fin n → W}
    (h : ops.erase ≠ .completed) : (rewrite erased ops data sector).1 = sector := by
  unfold rewrite
  cases herase : ops.erase with
  | completed => exact absurd herase h
  | failed => rfl
  | cut => rfl

/-- After a completed erase, a word is programmed when no operation up to its own
fell short. -/
theorem rewrite_of_erased {erased : W} {ops : Outcomes n} {data sector : Fin n → W}
    (h : ops.erase = .completed) (i : Fin n) :
    (rewrite erased ops data sector).1 i =
      if ∀ j ≤ i, ops.program j = .completed then data i else erased := by
  simp only [rewrite, h, programWords_apply,
    mem_takeWhile_of_pairwise (List.pairwise_lt_finRange n), List.mem_finRange, true_and,
    forall_const, decide_eq_true_eq]

/-- If every operation completes, the sector holds the new data. -/
theorem rewrite_of_completed {erased : W} {ops : Outcomes n} {data sector : Fin n → W}
    (herase : ops.erase = .completed) (hall : ∀ i, ops.program i = .completed) :
    (rewrite erased ops data sector).1 = data := by
  ext i
  rw [rewrite_of_erased herase, if_pos fun j _ => hall j]

/-- If the programming of word `k` is the first operation that does not complete,
the sector holds the partial image up to `k`. -/
theorem rewrite_of_first {erased : W} {ops : Outcomes n} {data sector : Fin n → W}
    (herase : ops.erase = .completed) {k : Fin n}
    (hbefore : ∀ i < k, ops.program i = .completed) (hk : ops.program k ≠ .completed) :
    (rewrite erased ops data sector).1 = partialImage erased data k := by
  ext i
  rw [rewrite_of_erased herase, partialImage]
  by_cases hik : i < k
  · rw [if_pos fun j hj => hbefore j (lt_of_le_of_lt hj hik), if_pos hik]
  · rw [if_neg fun hall => hk (hall k (not_lt.mp hik)), if_neg hik]

end FlashSector
