import MDCMotorControl.Library.Binary32
import Mathlib.Tactic.FieldSimp

/-!
# Rounding of single-precision sums

How rounding to nearest acts on numbers above the subnormal range: it is monotone,
its relative error is at most half a unit of the significand, and a summand of at
most half a unit is lost while a larger one is not.

A number is written as a significand `x` with `2 ^ 23 ≤ x < 2 ^ 24` times the unit
`2 ^ k`; rounding acts on the significand.

Main results:

- Theorem `round_scaled`: rounding rounds the significand.
- Theorems `round_mono`, `round_bounds` and `round_isNormal`: order, error and shape
  of a rounded number.
- Theorems `IsNormal.round_add_eq_self` and `IsNormal.add_unit_le_round`: which summands
  are lost.
- Theorem `round_tenth_mul_ten`: whole numbers kept as tenths come back.
-/

namespace Binary32

/-! ## The nearest significand -/

theorem nearestEven_mono {x y : ℚ} (hx : 0 ≤ x) (h : x ≤ y) :
    nearestEven x ≤ nearestEven y := by
  have hmono : x.floor ≤ y.floor := Rat.floor_monotone h
  rcases lt_or_eq_of_le hmono with hlt | heq
  · -- a natural number lies between the two
    have hnonneg : 0 ≤ x.floor := Rat.le_floor_iff.mpr (by exact_mod_cast hx)
    have hcast : (((x.floor + 1).toNat : ℕ) : ℤ) = x.floor + 1 := by omega
    have hbelow : x < ((x.floor + 1).toNat : ℕ) := by
      have hfloor : x.floor < x.floor + 1 := by omega
      rw [Rat.floor_lt_iff, ← hcast] at hfloor
      exact_mod_cast hfloor
    have habove : (((x.floor + 1).toNat : ℕ) : ℚ) ≤ y := by
      have hfloor : x.floor + 1 ≤ y.floor := by omega
      rw [Rat.le_floor_iff, ← hcast] at hfloor
      exact_mod_cast hfloor
    exact (nearestEven_le hx hbelow).trans (le_nearestEven habove)
  · unfold nearestEven
    simp only [heq]
    split <;> split <;> try omega
    rename_i hup hdown
    exfalso
    apply hup
    rcases hdown with hdown | ⟨hdown, heven⟩
    · exact .inl (by linarith)
    · rcases lt_or_eq_of_le h with hlt | rfl
      · exact .inl (by linarith)
      · exact .inr ⟨hdown, heven⟩

/-- The nearest natural number is at most one half away. -/
theorem abs_nearestEven_sub_le {x : ℚ} (hx : 0 ≤ x) : |(nearestEven x : ℚ) - x| ≤ 1 / 2 := by
  have hnonneg : 0 ≤ x.floor := Rat.le_floor_iff.mpr (by exact_mod_cast hx)
  have hcast : ((x.floor.toNat : ℕ) : ℚ) = x.floor := by
    exact_mod_cast Int.toNat_of_nonneg hnonneg
  have hlow : (x.floor : ℚ) ≤ x := Rat.floor_le x
  have hhigh : x < x.floor + 1 := by exact_mod_cast Rat.lt_floor_add_one x
  unfold nearestEven
  simp only [hcast]
  split
  · rename_i hdown
    rw [hcast, abs_le]
    rcases hdown with hdown | ⟨hdown, _⟩ <;> constructor <;> linarith
  · rename_i hup
    rw [not_or, not_lt] at hup
    push_cast
    rw [hcast, abs_le]
    constructor <;> linarith [hup.1]

theorem floor_eq {x : ℚ} {n : ℕ} (h : n ≤ x) (h' : x < n + 1) : x.floor = n := by
  have hlow : (n : ℤ) ≤ x.floor := Rat.le_floor_iff.mpr (by exact_mod_cast h)
  have hhigh : x.floor < n + 1 := Rat.floor_lt_iff.mpr (by exact_mod_cast h')
  omega

/-- Less than half a unit away, or at half a unit from an even number. -/
theorem nearestEven_eq {x : ℚ} {n : ℕ} (hx : 0 ≤ x) (h : |x - n| ≤ 1 / 2)
    (htie : |x - n| = 1 / 2 → n % 2 = 0) : nearestEven x = n := by
  rw [abs_le] at h
  rcases lt_or_ge x n with hlt | hge
  · -- just below `n`
    obtain ⟨m, rfl⟩ : ∃ m, n = m + 1 := by
      cases n with
      | zero => exact absurd hlt (not_lt.mpr (by simpa using hx))
      | succ m => exact ⟨m, rfl⟩
    push_cast at h hlt htie
    have hfloor : x.floor = (m : ℤ) := floor_eq (by linarith) hlt
    unfold nearestEven
    simp only [hfloor, Int.toNat_natCast]
    rw [if_neg]
    rintro (hnear | ⟨hhalf, heven⟩)
    · linarith
    · have hodd := htie (by rw [abs_of_neg (by linarith)]; linarith)
      omega
  · have hfloor : x.floor = (n : ℤ) := floor_eq hge (by linarith)
    unfold nearestEven
    simp only [hfloor, Int.toNat_natCast]
    rw [if_pos]
    rcases lt_or_eq_of_le h.2 with hnear | hhalf
    · exact .inl hnear
    · exact .inr ⟨hhalf, htie (by rw [abs_of_nonneg (by linarith)]; exact hhalf)⟩

@[simp] theorem nearestEven_natCast (n : ℕ) : nearestEven (n : ℚ) = n :=
  nearestEven_eq (Nat.cast_nonneg n) (by simp) (by simp)

/-- A significand keeps 24 bits, or carries. -/
theorem nearestEven_bounds {x : ℚ} (hlow : 2 ^ 23 ≤ x) (hhigh : x < 2 ^ 24) :
    2 ^ 23 ≤ nearestEven x ∧ nearestEven x ≤ 2 ^ 24 :=
  ⟨le_nearestEven (by exact_mod_cast hlow), nearestEven_le (by linarith) (by exact_mod_cast hhigh)⟩

/-! ## Significand and unit -/

/-- A significand of exactly 24 bits and a unit that is not below the smallest. -/
structure IsNormal (n : ℕ) (k : ℤ) : Prop where
  le : 2 ^ 23 ≤ n
  lt : n < 2 ^ 24
  unit : -149 ≤ k

/-- The smallest number above the subnormal ones. -/
def minNormal : ℚ := 2 ^ (-126 : ℤ)

theorem minNormal_pos : 0 < minNormal := unit_pos _

/-- The unit times a power of two is a larger unit. -/
theorem two_pow_mul_unit (m : ℕ) (k : ℤ) : (2 : ℚ) ^ m * 2 ^ k = 2 ^ (m + k) := by
  rw [zpow_add₀ (by decide), zpow_natCast]

/-- A power of two has the smallest significand. -/
theorem isNormal_two_pow {p : ℤ} (hp : -126 ≤ p) :
    IsNormal (2 ^ 23) (p - 23) ∧ ((2 ^ 23 : ℕ) : ℚ) * 2 ^ (p - 23) = 2 ^ p := by
  have hexp : ((23 : ℕ) : ℤ) + (p - 23) = p := by omega
  refine ⟨⟨le_rfl, by decide, by omega⟩, ?_⟩
  rw [Nat.cast_pow, Nat.cast_ofNat, two_pow_mul_unit, hexp]

/-- The exponent of a number between two powers of two. -/
theorem exponentOf_eq {q : ℚ} {e : ℤ} (hlow : 2 ^ e ≤ q) (hhigh : q < 2 ^ (e + 1))
    (he : -126 ≤ e) : exponentOf q = e := by
  have hpos : 0 < q := (unit_pos e).trans_le hlow
  have hlog : Int.log 2 q = e := by
    apply le_antisymm
    · rw [← Int.lt_add_one_iff, ← Int.lt_zpow_iff_log_lt (by decide) hpos, Nat.cast_ofNat]
      exact hhigh
    · rw [← Int.zpow_le_iff_le_log (by decide) hpos, Nat.cast_ofNat]
      exact hlow
  rw [exponentOf, abs_of_pos hpos, hlog]
  omega

/-- Every number above the subnormal ones has a significand. -/
theorem exists_scaled {q : ℚ} (h : minNormal ≤ q) :
    ∃ x : ℚ, ∃ k : ℤ, 2 ^ 23 ≤ x ∧ x < 2 ^ 24 ∧ -149 ≤ k ∧ q = x * 2 ^ k := by
  have hpos : 0 < q := minNormal_pos.trans_le h
  have hlow : 2 ^ Int.log 2 q ≤ q := by
    have hself := Int.zpow_log_le_self (b := 2) (by decide) hpos
    rwa [Nat.cast_ofNat] at hself
  have hhigh : q < 2 ^ (Int.log 2 q + 1) := by
    have hself := Int.lt_zpow_succ_log_self (b := 2) (by decide) q
    rwa [Nat.cast_ofNat] at hself
  have hexponent : -126 ≤ Int.log 2 q := by
    rw [← Int.zpow_le_iff_le_log (by decide) hpos, Nat.cast_ofNat]
    exact h
  have hunit := unit_pos (Int.log 2 q - 23)
  have hself : q = q / 2 ^ (Int.log 2 q - 23) * 2 ^ (Int.log 2 q - 23) :=
    (div_mul_cancel₀ q hunit.ne').symm
  have hleading : ((23 : ℕ) : ℤ) + (Int.log 2 q - 23) = Int.log 2 q := by omega
  have hcarry : ((24 : ℕ) : ℤ) + (Int.log 2 q - 23) = Int.log 2 q + 1 := by omega
  refine ⟨q / 2 ^ (Int.log 2 q - 23), Int.log 2 q - 23, ?_, ?_, by omega, hself⟩
  · rwa [le_div_iff₀ hunit, two_pow_mul_unit, hleading]
  · rwa [div_lt_iff₀ hunit, two_pow_mul_unit, hcarry]

/-! ## Rounding acts on the significand -/

/-- Rounding rounds the significand. -/
theorem round_scaled {x : ℚ} {k : ℤ} (hlow : 2 ^ 23 ≤ x) (hhigh : x < 2 ^ 24) (hk : -149 ≤ k) :
    round (x * 2 ^ k) = nearestEven x * 2 ^ k := by
  have hunit := unit_pos k
  have hpos : 0 < x * 2 ^ k := mul_pos (by linarith) hunit
  have hexponent : exponentOf (x * 2 ^ k) = k + 23 := by
    apply exponentOf_eq _ _ (by omega)
    · have hpow : (2 : ℚ) ^ (k + 23) = 2 ^ 23 * 2 ^ k := by
        rw [two_pow_mul_unit]
        congr 1
        push_cast
        ring
      rw [hpow]
      exact mul_le_mul_of_nonneg_right hlow hunit.le
    · have hpow : (2 : ℚ) ^ (k + 23 + 1) = 2 ^ 24 * 2 ^ k := by
        rw [two_pow_mul_unit]
        congr 1
        push_cast
        ring
      rw [hpow]
      exact mul_lt_mul_of_pos_right hhigh hunit
  have hscaled : x * 2 ^ k * 2 ^ (23 - (k + 23)) = x := by
    have hexp : k + (23 - (k + 23)) = 0 := by omega
    rw [mul_assoc, ← zpow_add₀ (by decide), hexp, zpow_zero, mul_one]
  have hback : k + 23 - 23 = k := by omega
  rw [round, if_neg hpos.ne', if_neg (not_lt.mpr hpos.le)]
  simp only [abs_of_pos hpos, hexponent, hscaled, hback]

/-- The same when the significand carries into the next unit. -/
theorem round_scaled_le {x : ℚ} {k : ℤ} (hlow : 2 ^ 23 ≤ x) (hhigh : x ≤ 2 ^ 24) (hk : -149 ≤ k) :
    round (x * 2 ^ k) = nearestEven x * 2 ^ k := by
  rcases lt_or_eq_of_le hhigh with hlt | rfl
  · exact round_scaled hlow hlt hk
  · have hcarry : (2 : ℚ) ^ 24 * 2 ^ k = ((2 ^ 23 : ℕ) : ℚ) * 2 ^ (k + 1) := by
      rw [zpow_add₀ (by decide)]
      push_cast
      ring
    have hcast : (2 : ℚ) ^ 24 = ((2 ^ 24 : ℕ) : ℚ) := by norm_num
    rw [hcarry, round_scaled (by norm_num) (by norm_num) (by omega), nearestEven_natCast,
      ← hcarry, hcast, nearestEven_natCast]

theorem IsNormal.minNormal_le {n : ℕ} {k : ℤ} (h : IsNormal n k) :
    minNormal ≤ n * 2 ^ k := by
  have hlow : (2 : ℚ) ^ 23 ≤ n := by exact_mod_cast h.le
  calc minNormal = 2 ^ 23 * 2 ^ (-149 : ℤ) := by
        rw [two_pow_mul_unit]
        norm_num [minNormal]
    _ ≤ 2 ^ 23 * 2 ^ k := by
        apply mul_le_mul_of_nonneg_left _ (by positivity)
        exact zpow_le_zpow_right₀ (by decide) h.unit
    _ ≤ n * 2 ^ k := mul_le_mul_of_nonneg_right hlow (unit_pos k).le

/-- A rounded number has a 24-bit significand. -/
theorem round_isNormal {q : ℚ} (h : minNormal ≤ q) :
    ∃ n k, IsNormal n k ∧ round q = n * 2 ^ k := by
  obtain ⟨x, k, hlow, hhigh, hk, rfl⟩ := exists_scaled h
  obtain ⟨hge, hle⟩ := nearestEven_bounds hlow hhigh
  rw [round_scaled hlow hhigh hk]
  rcases Nat.lt_or_eq_of_le hle with hlt | hcarry
  · exact ⟨nearestEven x, k, ⟨hge, hlt, hk⟩, rfl⟩
  · refine ⟨2 ^ 23, k + 1, ⟨le_rfl, by decide, by omega⟩, ?_⟩
    rw [hcarry, zpow_add₀ (by decide)]
    push_cast
    ring

/-- Rounding errs by at most half a unit of the significand. -/
theorem abs_round_sub_le {q : ℚ} (h : minNormal ≤ q) : |round q - q| ≤ q / 2 ^ 24 := by
  obtain ⟨x, k, hlow, hhigh, hk, rfl⟩ := exists_scaled h
  have hunit := unit_pos k
  have hnearest := abs_nearestEven_sub_le (x := x) (by linarith)
  rw [round_scaled hlow hhigh hk, ← sub_mul, abs_mul, abs_of_pos hunit]
  calc |(nearestEven x : ℚ) - x| * 2 ^ k ≤ 1 / 2 * 2 ^ k :=
        mul_le_mul_of_nonneg_right hnearest hunit.le
    _ ≤ x / 2 ^ 24 * 2 ^ k := mul_le_mul_of_nonneg_right (by linarith) hunit.le
    _ = x * 2 ^ k / 2 ^ 24 := by ring

/-- A rounded number lies within one part in `2 ^ 24`. -/
theorem round_bounds {q : ℚ} (h : minNormal ≤ q) :
    q * (1 - 1 / 2 ^ 24) ≤ round q ∧ round q ≤ q * (1 + 1 / 2 ^ 24) := by
  have herror := abs_le.mp (abs_round_sub_le h)
  constructor <;> linarith [herror.1, herror.2]

theorem round_zero : round 0 = 0 :=
  if_pos rfl

theorem round_nonneg {q : ℚ} (h : 0 ≤ q) : 0 ≤ round q := by
  rw [round]
  split
  · exact le_rfl
  · rw [if_neg (not_lt.mpr h)]
    exact mul_nonneg (Nat.cast_nonneg _) (unit_pos _).le

/-- Rounding is monotone above the subnormal numbers. -/
theorem round_mono {p q : ℚ} (hp : minNormal ≤ p) (h : p ≤ q) : round p ≤ round q := by
  obtain ⟨x, k, hxlow, hxhigh, hk, rfl⟩ := exists_scaled hp
  obtain ⟨y, l, hylow, hyhigh, hl, rfl⟩ := exists_scaled (hp.trans h)
  have hkpos := unit_pos k
  have hlpos := unit_pos l
  rw [round_scaled hxlow hxhigh hk, round_scaled hylow hyhigh hl]
  rcases lt_trichotomy k l with hlt | rfl | hgt
  · -- the carry of the smaller one is below the larger unit
    have hx : (nearestEven x : ℚ) ≤ 2 ^ 24 := by
      exact_mod_cast (nearestEven_bounds hxlow hxhigh).2
    have hy : (2 : ℚ) ^ 23 ≤ nearestEven y := by
      exact_mod_cast (nearestEven_bounds hylow hyhigh).1
    calc (nearestEven x : ℚ) * 2 ^ k ≤ 2 ^ 24 * 2 ^ k := mul_le_mul_of_nonneg_right hx hkpos.le
      _ = 2 ^ 23 * 2 ^ (k + 1) := by rw [zpow_add₀ (by decide)]; ring
      _ ≤ 2 ^ 23 * 2 ^ l := by
        apply mul_le_mul_of_nonneg_left _ (by positivity)
        exact zpow_le_zpow_right₀ (by decide) (by omega)
      _ ≤ nearestEven y * 2 ^ l := mul_le_mul_of_nonneg_right hy hlpos.le
  · have hxy : x ≤ y := le_of_mul_le_mul_right h hkpos
    have hround : (nearestEven x : ℚ) ≤ nearestEven y := by
      exact_mod_cast nearestEven_mono (by linarith) hxy
    exact mul_le_mul_of_nonneg_right hround hkpos.le
  · -- a larger unit means a larger number
    exfalso
    have hunits : (2 : ℚ) ^ (l + 1) ≤ 2 ^ k := zpow_le_zpow_right₀ (by decide) (by omega)
    rw [zpow_add₀ (by decide)] at hunits
    have hxk : (2 : ℚ) ^ 23 * 2 ^ k ≤ x * 2 ^ k := mul_le_mul_of_nonneg_right hxlow hkpos.le
    have hyl : y * 2 ^ l < 2 ^ 24 * 2 ^ l := mul_lt_mul_of_pos_right hyhigh hlpos
    linarith

/-! ## Which summands are lost -/

variable {n : ℕ} {k : ℤ} {s : ℚ}

/-- A summand of at most half a unit is lost, if the significand is even. -/
theorem IsNormal.round_add_eq_self (h : IsNormal n k) (heven : n % 2 = 0) (hs : 0 ≤ s)
    (hsmall : s ≤ 2 ^ k / 2) : round (n * 2 ^ k + s) = n * 2 ^ k := by
  have hunit := unit_pos k
  have hscaled : (n : ℚ) * 2 ^ k + s = (n + s / 2 ^ k) * 2 ^ k := by
    rw [add_mul, div_mul_cancel₀ s hunit.ne']
  have hfraction : s / 2 ^ k ≤ 1 / 2 := by
    rw [div_le_iff₀ hunit]
    linarith
  have hnonneg : 0 ≤ s / 2 ^ k := div_nonneg hs hunit.le
  have hlow : (2 : ℚ) ^ 23 ≤ n := by exact_mod_cast h.le
  have hhigh : (n : ℚ) + 1 ≤ 2 ^ 24 := by exact_mod_cast h.lt
  rw [hscaled, round_scaled_le (by linarith) (by linarith) h.unit]
  congr 2
  apply nearestEven_eq (by linarith)
  · rw [add_sub_cancel_left, abs_of_nonneg hnonneg]
    exact hfraction
  · exact fun _ => heven

/-- Powers of two are not rounded. -/
theorem round_two_pow {p : ℤ} (hp : -126 ≤ p) : round (2 ^ p) = 2 ^ p := by
  obtain ⟨hnormal, hpow⟩ := isNormal_two_pow hp
  have hself := hnormal.round_add_eq_self (s := 0) (by decide) le_rfl
    (by linarith [unit_pos (p - 23)])
  rwa [add_zero, hpow] at hself

/-- A summand of more than half a unit is not lost. -/
theorem IsNormal.add_unit_le_round (h : IsNormal n k) (hs : 2 ^ k / 2 < s) :
    n * 2 ^ k + 2 ^ k ≤ round (n * 2 ^ k + s) := by
  have hunit := unit_pos k
  have hlow : (2 : ℚ) ^ 23 ≤ n := by exact_mod_cast h.le
  have hhigh : (n : ℚ) + 1 ≤ 2 ^ 24 := by exact_mod_cast h.lt
  -- it is enough to round a sum with a summand of at most one unit
  have hcut : round (n * 2 ^ k + min s (2 ^ k)) = n * 2 ^ k + 2 ^ k := by
    have hscaled : (n : ℚ) * 2 ^ k + min s (2 ^ k) = (n + min s (2 ^ k) / 2 ^ k) * 2 ^ k := by
      rw [add_mul, div_mul_cancel₀ _ hunit.ne']
    have hle : min s (2 ^ k) / 2 ^ k ≤ 1 := by
      rw [div_le_one hunit]
      exact min_le_right _ _
    have hgt : 1 / 2 < min s (2 ^ k) / 2 ^ k := by
      rw [lt_div_iff₀ hunit, lt_min_iff]
      constructor <;> linarith
    have hnearest : nearestEven (n + min s (2 ^ k) / 2 ^ k) = n + 1 := by
      apply nearestEven_eq (by linarith)
      · push_cast
        rw [abs_le]
        constructor <;> linarith
      · intro htie
        push_cast at htie
        rw [abs_of_nonpos (by linarith)] at htie
        linarith
    rw [hscaled, round_scaled_le (by linarith) (by linarith) h.unit, hnearest]
    push_cast
    ring
  rw [← hcut]
  apply round_mono
  · have hsmallest : minNormal ≤ n * 2 ^ k := h.minNormal_le
    have hmin : 0 ≤ min s (2 ^ k) := le_min (by linarith) hunit.le
    linarith
  · have hmin := min_le_left s (2 ^ k)
    linarith

/-- Which numbers are rounded above a power of two. -/
theorem two_pow_lt_round_iff {p : ℤ} (hp : -126 ≤ p) {q : ℚ} (hq : minNormal ≤ q) :
    2 ^ p < round q ↔ 2 ^ p + 2 ^ (p - 24) < q := by
  obtain ⟨hnormal, hpow⟩ := isNormal_two_pow hp
  have hhalf : (2 : ℚ) ^ (p - 23) / 2 = 2 ^ (p - 24) := by
    have hexp : p - 23 = p - 24 + 1 := by omega
    rw [hexp, zpow_add_one₀ (by decide), mul_div_cancel_right₀ _ (by decide)]
  constructor
  · intro hlt
    by_contra hle
    have hround := hnormal.round_add_eq_self (by decide) (unit_pos (p - 24)).le hhalf.ge
    have hmono := round_mono hq (not_lt.mp hle)
    rw [hpow] at hround
    rw [hround] at hmono
    exact absurd hlt (not_lt.mpr hmono)
  · intro hlt
    have hround := hnormal.add_unit_le_round (s := q - 2 ^ p) (by rw [hhalf]; linarith)
    rw [hpow, add_sub_cancel] at hround
    have hunit := unit_pos (p - 23)
    linarith

/-! ## Tenths -/

/-- The unit of a tenth divides the whole number, with a factor 16 to spare. -/
theorem exists_tenth_scaled {n : ℕ} (hpos : 0 < n) (h : n < 2 ^ 20) :
    ∃ (x : ℚ) (m : ℕ) (k : ℤ), 2 ^ 23 ≤ x ∧ x < 2 ^ 24 ∧ -149 ≤ k ∧ (n : ℚ) / 10 = x * 2 ^ k ∧
      (n : ℚ) = 16 * m * 2 ^ k := by
  have hone : (1 : ℚ) ≤ n := by exact_mod_cast hpos
  have hsmallest : minNormal ≤ 1 / 10 := by norm_num [minNormal]
  obtain ⟨x, k, hlow, hhigh, hk, hx⟩ := exists_scaled (q := n / 10) (by linarith)
  have hexp : k ≤ -4 := by
    by_contra hgt
    have hpow : (2 : ℚ) ^ (((23 : ℕ) : ℤ) + (-3)) ≤ 2 ^ (((23 : ℕ) : ℤ) + k) :=
      zpow_le_zpow_right₀ (by decide) (by omega)
    rw [← two_pow_mul_unit, ← two_pow_mul_unit] at hpow
    have hle : (2 : ℚ) ^ 23 * 2 ^ k ≤ n / 10 :=
      hx ▸ mul_le_mul_of_nonneg_right hlow (unit_pos k).le
    have hlt : (n : ℚ) < 2 ^ 20 := by exact_mod_cast h
    norm_num at hpow
    linarith
  obtain ⟨j, hj⟩ : ∃ j : ℕ, k = -((4 + j : ℕ) : ℤ) := ⟨(-4 - k).toNat, by omega⟩
  have hpow : (2 : ℚ) ^ (4 + j) * 2 ^ k = 1 := by
    rw [hj, zpow_neg, zpow_natCast]
    exact mul_inv_cancel₀ (by positivity)
  refine ⟨x, n * 2 ^ j, k, hlow, hhigh, hk, hx, ?_⟩
  calc (n : ℚ) = n * (2 ^ (4 + j) * 2 ^ k) := by rw [hpow, mul_one]
    _ = 16 * (n * 2 ^ j : ℕ) * 2 ^ k := by
      rw [pow_add]
      push_cast
      ring

/-- Ten times the rounded significand of a tenth is off by an even number below five. -/
theorem ten_nearestEven_near {x : ℚ} {m : ℕ} (hx : 0 ≤ x) (h : 10 * x = 16 * m) :
    10 * nearestEven x ≤ 16 * m + 4 ∧ 16 * m ≤ 10 * nearestEven x + 4 := by
  have hnear := abs_le.mp (abs_nearestEven_sub_le hx)
  have hup : ((10 * nearestEven x : ℕ) : ℚ) ≤ ((16 * m + 5 : ℕ) : ℚ) := by
    push_cast
    linarith [hnear.2]
  have hdown : ((16 * m : ℕ) : ℚ) ≤ ((10 * nearestEven x + 5 : ℕ) : ℚ) := by
    push_cast
    linarith [hnear.1]
  have hupn : 10 * nearestEven x ≤ 16 * m + 5 := by exact_mod_cast hup
  have hdownn : 16 * m ≤ 10 * nearestEven x + 5 := by exact_mod_cast hdown
  omega

/-- Rounded, ten times such a significand is the number that is a multiple of 16. -/
theorem round_mul_ten {r m : ℕ} {k : ℤ} (hlow : 2 ^ 23 ≤ r) (hhigh : r ≤ 2 ^ 24) (hk : -149 ≤ k)
    (hup : 10 * r ≤ 16 * m + 4) (hdown : 16 * m ≤ 10 * r + 4) :
    round (r * 2 ^ k * 10) = 16 * m * 2 ^ k := by
  have hlowq : (2 : ℚ) ^ 23 ≤ r := by exact_mod_cast hlow
  have hhighq : (r : ℚ) ≤ 2 ^ 24 := by exact_mod_cast hhigh
  have hupq : (10 : ℚ) * r ≤ 16 * m + 4 := by exact_mod_cast hup
  have hdownq : (16 : ℚ) * m ≤ 10 * r + 4 := by exact_mod_cast hdown
  rcases le_or_gt ((10 : ℚ) * r) (2 ^ 27) with hsmall | hlarge
  · have hscaled : (r : ℚ) * 2 ^ k * 10 = 10 * r / 8 * 2 ^ (k + 3) := by
      rw [zpow_add₀ (by decide)]
      ring
    have hnearest : nearestEven (10 * r / 8) = 2 * m := by
      apply nearestEven_eq (by positivity)
      · push_cast
        rw [abs_le]
        constructor <;> linarith
      · exact fun _ => Nat.mul_mod_right 2 m
    rw [hscaled, round_scaled_le (by linarith) (by linarith) (by omega), hnearest,
      zpow_add₀ (by decide)]
    push_cast
    ring
  · have hscaled : (r : ℚ) * 2 ^ k * 10 = 10 * r / 16 * 2 ^ (k + 4) := by
      rw [zpow_add₀ (by decide)]
      ring
    have hnearest : nearestEven (10 * r / 16) = m := by
      apply nearestEven_eq (by positivity)
      · rw [abs_le]
        constructor <;> linarith
      · intro htie
        exfalso
        have hle : |(10 : ℚ) * r / 16 - m| ≤ 1 / 4 := by
          rw [abs_le]
          constructor <;> linarith
        linarith
    rw [hscaled, round_scaled_le (by linarith) (by linarith) (by omega), hnearest,
      zpow_add₀ (by decide)]
    ring

/-- A whole number survives a division by ten and a multiplication by ten, both
rounded. -/
theorem round_tenth_mul_ten {n : ℕ} (h : n < 2 ^ 20) : round (round (n / 10) * 10) = n := by
  rcases Nat.eq_zero_or_pos n with rfl | hpos
  · rw [Nat.cast_zero, zero_div, round_zero, zero_mul, round_zero]
  obtain ⟨x, m, k, hlow, hhigh, hk, hx, hn⟩ := exists_tenth_scaled hpos h
  have hten : 10 * x = 16 * m := by
    have hscaled : 10 * x * 2 ^ k = 16 * m * 2 ^ k := by linarith
    exact mul_right_cancel₀ (unit_pos k).ne' hscaled
  obtain ⟨hup, hdown⟩ := ten_nearestEven_near (by linarith) hten
  obtain ⟨hrlow, hrhigh⟩ := nearestEven_bounds hlow hhigh
  calc round (round (n / 10) * 10) = round (nearestEven x * 2 ^ k * 10) := by
        rw [hx, round_scaled hlow hhigh hk]
    _ = 16 * m * 2 ^ k := round_mul_ten hrlow hrhigh hk hup hdown
    _ = n := hn.symm

end Binary32
