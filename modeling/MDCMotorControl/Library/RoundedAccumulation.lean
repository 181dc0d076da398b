import MDCMotorControl.Library.Binary32Rounding
import Mathlib.Algebra.Order.Archimedean.Basic

/-!
# Accumulation in single precision

A summand is added again and again to an accumulator, and every sum is rounded.
The accumulator climbs until a sum is rounded back to what was added to.  Whether
that happens below a bound is decided by the largest unit below the bound.

Main results:

- Theorem `lt_accumulate`: below the bound every addition makes progress, when the
  summand exceeds half of that unit.
- Theorem `accumulate_reaches_iff`: the accumulator reaches the bound exactly then.
-/

namespace Binary32

/-- One addition to the accumulator. -/
def accumulate (s x : ℚ) : ℚ :=
  round (x + s)

/-- The summand exceeds half the unit of every number below the bound. -/
def Fine (bound s : ℚ) : Prop :=
  ∃ n : ℤ, bound ≤ 2 ^ n ∧ 2 ^ n < 2 ^ 25 * s

variable {bound s start : ℚ} {n₀ : ℕ} {k₀ : ℤ}

/-! ## Progress -/

theorem Fine.pos (h : Fine bound s) : 0 < s := by
  obtain ⟨n, _, hs⟩ := h
  have hn := unit_pos n
  linarith

/-- Units of a larger number are not smaller. -/
theorem IsNormal.unit_le {m n : ℕ} {k l : ℤ} (hm : IsNormal m k) (hn : IsNormal n l)
    (h : (m : ℚ) * 2 ^ k ≤ n * 2 ^ l) : k ≤ l := by
  by_contra hlt
  have hunits : (2 : ℚ) ^ (l + 1) ≤ 2 ^ k := zpow_le_zpow_right₀ (by decide) (by omega)
  rw [zpow_add_one₀ (by decide)] at hunits
  have hlow : (2 : ℚ) ^ 23 ≤ m := by exact_mod_cast hm.le
  have hhigh : (n : ℚ) < 2 ^ 24 := by exact_mod_cast hn.lt
  have hmk : (2 : ℚ) ^ 23 * 2 ^ k ≤ m * 2 ^ k := mul_le_mul_of_nonneg_right hlow (unit_pos k).le
  have hnl : (n : ℚ) * 2 ^ l < 2 ^ 24 * 2 ^ l := mul_lt_mul_of_pos_right hhigh (unit_pos l)
  linarith

/-- The unit of a number below a power of two. -/
theorem IsNormal.unit_of_lt {m : ℕ} {k n : ℤ} (hm : IsNormal m k)
    (h : (m : ℚ) * 2 ^ k < 2 ^ n) : k + 24 ≤ n := by
  have hlow : (2 : ℚ) ^ 23 ≤ m := by exact_mod_cast hm.le
  have hpow : (2 : ℚ) ^ (((23 : ℕ) : ℤ) + k) < 2 ^ n := by
    rw [← two_pow_mul_unit]
    exact (mul_le_mul_of_nonneg_right hlow (unit_pos k).le).trans_lt h
  have hlt := (zpow_lt_zpow_iff_right₀ (by decide)).mp hpow
  omega

/-- Below the bound one addition climbs by a unit. -/
theorem Fine.add_unit_le_accumulate (h : Fine bound s) {m : ℕ} {k : ℤ} (hm : IsNormal m k)
    (hlt : (m : ℚ) * 2 ^ k < bound) : m * 2 ^ k + 2 ^ k ≤ accumulate s (m * 2 ^ k) := by
  obtain ⟨n, hbound, hs⟩ := h
  apply hm.add_unit_le_round
  have hexp := hm.unit_of_lt (hlt.trans_le hbound)
  have hpow : (2 : ℚ) ^ 24 * 2 ^ k ≤ 2 ^ n := by
    rw [two_pow_mul_unit]
    exact zpow_le_zpow_right₀ (by decide) (by omega)
  linarith

/-- Below the bound every addition makes progress. -/
theorem Fine.lt_accumulate (h : Fine bound s) {m : ℕ} {k : ℤ} (hm : IsNormal m k)
    (hlt : (m : ℚ) * 2 ^ k < bound) : m * 2 ^ k < accumulate s (m * 2 ^ k) := by
  have hunit := unit_pos k
  linarith [h.add_unit_le_accumulate hm hlt]

/-- The accumulator always holds a number with a 24-bit significand. -/
theorem iterate_accumulate_isNormal (h₀ : IsNormal n₀ k₀) (hs : 0 ≤ s) (j : ℕ) :
    ∃ m k, IsNormal m k ∧ (accumulate s)^[j] (n₀ * 2 ^ k₀) = m * 2 ^ k := by
  induction j with
  | zero => exact ⟨n₀, k₀, h₀, rfl⟩
  | succ j ih =>
      obtain ⟨m, k, hm, heq⟩ := ih
      rw [Function.iterate_succ_apply', heq]
      apply round_isNormal
      linarith [hm.minNormal_le]

/-- After `j` additions the bound has been reached, or every one of them has
climbed by the unit of the start. -/
theorem Fine.climb (h : Fine bound s) (h₀ : IsNormal n₀ k₀) (j : ℕ) :
    (∃ i, bound ≤ (accumulate s)^[i] (n₀ * 2 ^ k₀)) ∨
      n₀ * 2 ^ k₀ + j * 2 ^ k₀ ≤ (accumulate s)^[j] (n₀ * 2 ^ k₀) := by
  induction j with
  | zero => exact .inr (by simp)
  | succ j ih =>
      rcases ih with hreached | hclimbed
      · exact .inl hreached
      · obtain ⟨m, k, hm, heq⟩ := iterate_accumulate_isNormal h₀ h.pos.le j
        rcases lt_or_ge ((m : ℚ) * 2 ^ k) bound with hlt | hge
        · right
          rw [heq] at hclimbed
          have hstep := h.add_unit_le_accumulate hm hlt
          have hk : k₀ ≤ k := by
            apply h₀.unit_le hm
            have hnonneg : 0 ≤ (j : ℚ) * 2 ^ k₀ :=
              mul_nonneg (Nat.cast_nonneg j) (unit_pos k₀).le
            linarith
          have hunits : (2 : ℚ) ^ k₀ ≤ 2 ^ k := zpow_le_zpow_right₀ (by decide) hk
          rw [Function.iterate_succ_apply', heq]
          push_cast
          linarith
        · exact .inl ⟨j, heq ▸ hge⟩

/-- A summand above half the largest unit takes the accumulator to the bound. -/
theorem Fine.reaches (h : Fine bound s) (h₀ : IsNormal n₀ k₀) :
    ∃ i, bound ≤ (accumulate s)^[i] (n₀ * 2 ^ k₀) := by
  obtain ⟨j, hj⟩ := Archimedean.arch bound (unit_pos k₀)
  rcases h.climb h₀ j with hreached | hclimbed
  · exact hreached
  · refine ⟨j, ?_⟩
    have hpos := minNormal_pos.trans_le h₀.minNormal_le
    rw [nsmul_eq_mul] at hj
    linarith

/-! ## Loss -/

/-- A number that the summand is lost in is never passed. -/
theorem iterate_accumulate_le {m : ℕ} {k : ℤ} (hfixed : accumulate s (m * 2 ^ k) = m * 2 ^ k)
    (h₀ : IsNormal n₀ k₀) (hs : 0 ≤ s) (hle : (n₀ : ℚ) * 2 ^ k₀ ≤ m * 2 ^ k) (j : ℕ) :
    (accumulate s)^[j] (n₀ * 2 ^ k₀) ≤ m * 2 ^ k := by
  induction j with
  | zero => exact hle
  | succ j ih =>
      obtain ⟨m', k', hm', heq⟩ := iterate_accumulate_isNormal h₀ hs j
      rw [Function.iterate_succ_apply', ← hfixed]
      rw [heq] at ih ⊢
      apply round_mono
      · linarith [hm'.minNormal_le]
      · linarith

/-- Every positive number lies in a binade. -/
theorem exists_binade {q : ℚ} (hq : 0 < q) : ∃ n : ℤ, 2 ^ (n - 1) < q ∧ q ≤ 2 ^ n := by
  refine ⟨Int.clog 2 q, ?_, ?_⟩
  · have hpred := Int.zpow_pred_clog_lt_self (b := 2) (by decide) hq
    rwa [Nat.cast_ofNat] at hpred
  · have hself := Int.self_le_zpow_clog (b := 2) (by decide) q
    rwa [Nat.cast_ofNat] at hself

/-- In the upper half of a binade the unit is that of the binade. -/
theorem IsNormal.unit_of_binade {m : ℕ} {k n : ℤ} (hm : IsNormal m k)
    (hlow : 2 ^ (n - 1) < (m : ℚ) * 2 ^ k) (hhigh : (m : ℚ) * 2 ^ k < 2 ^ n) : k = n - 24 := by
  have hupper := hm.unit_of_lt hhigh
  have hlt : (m : ℚ) * 2 ^ k < 2 ^ (24 + k) := by
    rw [zpow_add₀ (by decide)]
    have hsig : (m : ℚ) < 2 ^ 24 := by exact_mod_cast hm.lt
    exact mul_lt_mul_of_pos_right hsig (unit_pos k)
  have hlower := (zpow_lt_zpow_iff_right₀ (by decide)).mp (hlow.trans hlt)
  omega

/-- A summand of at most half a unit is lost in a number or in the next one, whichever
has an even significand. -/
theorem IsNormal.exists_even_lost {m : ℕ} {k : ℤ} (hm : IsNormal m k) (hs : 0 ≤ s)
    (hhalf : s ≤ 2 ^ k / 2) (hroom : (m : ℚ) * 2 ^ k + 2 ^ k < 2 ^ 24 * 2 ^ k) :
    ∃ l, IsNormal l k ∧ (m : ℚ) * 2 ^ k ≤ l * 2 ^ k ∧ (l : ℚ) * 2 ^ k ≤ m * 2 ^ k + 2 ^ k ∧
      accumulate s (l * 2 ^ k) = l * 2 ^ k := by
  have hunit := unit_pos k
  rcases Nat.mod_two_eq_zero_or_one m with heven | hodd
  · exact ⟨m, hm, le_rfl, by linarith, hm.round_add_eq_self heven hs hhalf⟩
  · have hcast : ((m + 1 : ℕ) : ℚ) * 2 ^ k = m * 2 ^ k + 2 ^ k := by
      push_cast
      ring
    have hnormal : IsNormal (m + 1) k := by
      refine ⟨by linarith [hm.le], ?_, hm.unit⟩
      have hlt : ((m + 1 : ℕ) : ℚ) * 2 ^ k < 2 ^ 24 * 2 ^ k := hcast ▸ hroom
      exact_mod_cast lt_of_mul_lt_mul_right hlt hunit.le
    refine ⟨m + 1, hnormal, ?_, hcast.le, hnormal.round_add_eq_self (by omega) hs hhalf⟩
    linarith

/-- Below the bound a summand of at most half the largest unit is lost somewhere. -/
theorem exists_lost (h₀ : IsNormal n₀ k₀) (hs : 0 ≤ s)
    (hroom : (n₀ : ℚ) * 2 ^ k₀ + 2 ^ k₀ < bound) (h : ¬ Fine bound s) :
    ∃ m k, IsNormal m k ∧ (n₀ : ℚ) * 2 ^ k₀ ≤ m * 2 ^ k ∧ (m : ℚ) * 2 ^ k < bound ∧
      accumulate s (m * 2 ^ k) = m * 2 ^ k := by
  have hunit₀ := unit_pos k₀
  have hstart := minNormal_pos.trans_le h₀.minNormal_le
  obtain ⟨n, hlow, hhigh⟩ := exists_binade (q := bound) (by linarith)
  have hsmall : 2 ^ 25 * s ≤ 2 ^ n := not_lt.mp fun hlt => h ⟨n, hhigh, hlt⟩
  have hsplit : (2 : ℚ) ^ n = 2 ^ 24 * 2 ^ (n - 24) := by
    have hexp : ((24 : ℕ) : ℤ) + (n - 24) = n := by omega
    rw [two_pow_mul_unit, hexp]
  have hhalf : s ≤ 2 ^ (n - 24) / 2 := by linarith
  rcases le_or_gt ((n₀ : ℚ) * 2 ^ k₀) (2 ^ (n - 1)) with hbelow | habove
  · -- lost at the power of two
    have hmin : (2 : ℚ) ^ (-126 : ℤ) ≤ 2 ^ (n - 1) := h₀.minNormal_le.trans hbelow
    have hexp : n - 1 - 23 = n - 24 := by omega
    obtain ⟨hnormal, hpow⟩ := isNormal_two_pow ((zpow_le_zpow_iff_right₀ (by decide)).mp hmin)
    rw [hexp] at hnormal hpow
    refine ⟨2 ^ 23, n - 24, hnormal, ?_, ?_, hnormal.round_add_eq_self (by decide) hs hhalf⟩
    · rwa [hpow]
    · rwa [hpow]
  · -- lost at the start or right above it
    have hk₀ : k₀ = n - 24 := h₀.unit_of_binade habove (by linarith)
    subst hk₀
    obtain ⟨m, hm, hle, hup, hlost⟩ := h₀.exists_even_lost hs hhalf (by linarith)
    exact ⟨m, n - 24, hm, hle, by linarith, hlost⟩

/-- The accumulator reaches the bound exactly when the summand exceeds half the
largest unit below it. -/
theorem accumulate_reaches_iff (h₀ : IsNormal n₀ k₀) (hs : 0 ≤ s)
    (hroom : (n₀ : ℚ) * 2 ^ k₀ + 2 ^ k₀ < bound) :
    (∃ i, bound ≤ (accumulate s)^[i] (n₀ * 2 ^ k₀)) ↔ Fine bound s := by
  constructor
  · rintro ⟨i, hreached⟩
    by_contra hcoarse
    obtain ⟨m, k, _, hle, hlt, hfixed⟩ := exists_lost h₀ hs hroom hcoarse
    exact absurd (hreached.trans (iterate_accumulate_le hfixed h₀ hs hle i)) (not_le.mpr hlt)
  · exact fun hfine => hfine.reaches h₀

end Binary32
