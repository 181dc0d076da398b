import MDCMotorControl.Library.Binary32Rounding

/-!
# Rounding to a number of significant bits

Rounding to nearest, ties to even, with any number `p` of significant bits and an exponent
without bounds.  With 53 bits it is the arithmetic of double precision, away from overflow
and from the subnormal numbers.

A positive number is a significand `x` with `2 ^ p ≤ 2 * x` and `x < 2 ^ p`, times the unit
`2 ^ k`; rounding acts on the significand.

Main results:

- Theorem `abs_roundBits_sub_le`: the relative error.
- Theorem `roundBits_natCast`: whole numbers of at most `p` bits are kept.
- Theorem `roundBits_tenth_mul_ten`: whole numbers come back from a division and a
  multiplication by ten, both rounded.
-/

namespace SignificantBits

open Binary32

/-- The exponent of the last of `p` significant bits. -/
def unitExponent (p : ℕ) (q : ℚ) : ℤ :=
  Int.log 2 |q| + 1 - p

/-- Rounding to `p` significant bits, to nearest, ties to even. -/
def roundBits (p : ℕ) (q : ℚ) : ℚ :=
  if q = 0 then 0
  else
    let k := unitExponent p q
    let magnitude : ℚ := nearestEven (|q| / 2 ^ k) * 2 ^ k
    if q < 0 then -magnitude else magnitude

variable {p n : ℕ} {q x : ℚ} {k : ℤ}

@[simp] theorem roundBits_zero (p : ℕ) : roundBits p 0 = 0 :=
  if_pos rfl

/-! ## Significand and unit -/

/-- Every positive number has a significand. -/
theorem exists_significand (p : ℕ) (hq : 0 < q) :
    ∃ (x : ℚ) (k : ℤ), 2 ^ p ≤ 2 * x ∧ x < 2 ^ p ∧ q = x * 2 ^ k := by
  have hunit := unit_pos (unitExponent p q)
  have hlow : 2 ^ Int.log 2 q ≤ q := by
    have hself := Int.zpow_log_le_self (b := 2) (by decide) hq
    rwa [Nat.cast_ofNat] at hself
  have hhigh : q < 2 ^ (Int.log 2 q + 1) := by
    have hself := Int.lt_zpow_succ_log_self (b := 2) (by decide) q
    rwa [Nat.cast_ofNat] at hself
  have hexp : (p : ℤ) + unitExponent p q = Int.log 2 q + 1 := by
    rw [unitExponent, abs_of_pos hq]
    omega
  have hcarry : (2 : ℚ) ^ p * 2 ^ unitExponent p q = 2 ^ Int.log 2 q * 2 := by
    rw [two_pow_mul_unit, hexp, zpow_add_one₀ (by decide)]
  refine ⟨q / 2 ^ unitExponent p q, unitExponent p q, ?_, ?_, (div_mul_cancel₀ q hunit.ne').symm⟩
  · rw [mul_div_assoc', le_div_iff₀ hunit, hcarry]
    linarith
  · rwa [div_lt_iff₀ hunit, two_pow_mul_unit, hexp]

/-- Rounding rounds the significand. -/
theorem roundBits_significand (hlow : 2 ^ p ≤ 2 * x) (hhigh : x < 2 ^ p) (k : ℤ) :
    roundBits p (x * 2 ^ k) = nearestEven x * 2 ^ k := by
  have hpow : (0 : ℚ) < 2 ^ p := by positivity
  have hpos : 0 < x * 2 ^ k := mul_pos (by linarith) (unit_pos k)
  have hlog : Int.log 2 (x * 2 ^ k) = p + k - 1 := by
    have hexp : (p : ℤ) + k = p + k - 1 + 1 := by omega
    have htwo : (2 : ℚ) ^ p * 2 ^ k = 2 ^ ((p : ℤ) + k - 1) * 2 := by
      rw [two_pow_mul_unit, hexp, zpow_add_one₀ (by decide), ← hexp]
    have hbelow := mul_lt_mul_of_pos_right hhigh (unit_pos k)
    have habove := mul_le_mul_of_nonneg_right hlow (unit_pos k).le
    apply le_antisymm
    · rw [← Int.lt_add_one_iff, ← Int.lt_zpow_iff_log_lt (by decide) hpos, Nat.cast_ofNat,
        ← hexp, ← two_pow_mul_unit]
      exact hbelow
    · rw [← Int.zpow_le_iff_le_log (by decide) hpos, Nat.cast_ofNat]
      linarith
  have hunit : unitExponent p (x * 2 ^ k) = k := by
    rw [unitExponent, abs_of_pos hpos, hlog]
    omega
  rw [roundBits, if_neg hpos.ne', if_neg (not_lt.mpr hpos.le)]
  simp only [hunit, abs_of_pos hpos, mul_div_cancel_right₀ _ (unit_pos k).ne']

/-- The same when the significand carries. -/
theorem roundBits_carry (hp : 0 < p) (hlow : 2 ^ p ≤ 2 * x) (hhigh : x ≤ 2 ^ p) (k : ℤ) :
    roundBits p (x * 2 ^ k) = nearestEven x * 2 ^ k := by
  rcases lt_or_eq_of_le hhigh with hlt | rfl
  · exact roundBits_significand hlow hlt k
  · obtain ⟨m, rfl⟩ := Nat.exists_eq_succ_of_ne_zero hp.ne'
    have hcarry : (2 : ℚ) ^ (m + 1) * 2 ^ k = ((2 ^ m : ℕ) : ℚ) * 2 ^ (k + 1) := by
      rw [zpow_add₀ (by decide), pow_succ]
      push_cast
      ring
    have hcast : (2 : ℚ) ^ (m + 1) = ((2 ^ (m + 1) : ℕ) : ℚ) := by push_cast; rfl
    have hpos : (0 : ℚ) < 2 ^ m := by positivity
    rw [hcarry, roundBits_significand (by push_cast; rw [pow_succ]; linarith)
      (by push_cast; rw [pow_succ]; linarith), nearestEven_natCast, ← hcarry, hcast,
      nearestEven_natCast]

/-- A rounded significand has `p` bits, or carries. -/
theorem nearestEven_significand (hp : 0 < p) (hlow : 2 ^ p ≤ 2 * x) (hhigh : x < 2 ^ p) :
    (2 : ℚ) ^ p ≤ 2 * nearestEven x ∧ (nearestEven x : ℚ) ≤ 2 ^ p := by
  obtain ⟨m, rfl⟩ := Nat.exists_eq_succ_of_ne_zero hp.ne'
  rw [Nat.succ_eq_add_one, pow_succ] at *
  have hge : ((2 ^ m : ℕ) : ℚ) ≤ nearestEven x := by
    exact_mod_cast le_nearestEven (n := 2 ^ m) (x := x) (by push_cast; linarith)
  have hpos : (0 : ℚ) < 2 ^ m := by positivity
  have hle : ((nearestEven x : ℕ) : ℚ) ≤ ((2 ^ m * 2 : ℕ) : ℚ) := by
    exact_mod_cast nearestEven_le (n := 2 ^ m * 2) (by linarith) (by push_cast; exact hhigh)
  push_cast at hge hle
  exact ⟨by linarith, hle⟩

/-! ## Error and whole numbers -/

/-- Rounding errs by at most half a unit of the significand. -/
theorem abs_roundBits_sub_le (p : ℕ) (hq : 0 < q) : |roundBits p q - q| ≤ q / 2 ^ p := by
  obtain ⟨x, k, hlow, hhigh, rfl⟩ := exists_significand p hq
  have hunit := unit_pos k
  have hpow : (0 : ℚ) < 2 ^ p := by positivity
  have hnearest := abs_nearestEven_sub_le (x := x) (by linarith)
  rw [roundBits_significand hlow hhigh, ← sub_mul, abs_mul, abs_of_pos hunit]
  calc |(nearestEven x : ℚ) - x| * 2 ^ k ≤ 1 / 2 * 2 ^ k :=
        mul_le_mul_of_nonneg_right hnearest hunit.le
    _ ≤ x / 2 ^ p * 2 ^ k := by
        apply mul_le_mul_of_nonneg_right _ hunit.le
        rw [div_le_div_iff₀ (by decide) hpow]
        linarith
    _ = x * 2 ^ k / 2 ^ p := by ring

/-- A unit below one divides every whole number. -/
theorem exists_natCast_eq (n : ℕ) {j : ℕ} (hk : k ≤ -(j : ℤ)) :
    ∃ m : ℕ, (n : ℚ) = 2 ^ j * m * 2 ^ k := by
  obtain ⟨i, hi⟩ : ∃ i : ℕ, k = -((j + i : ℕ) : ℤ) := ⟨(-j - k).toNat, by omega⟩
  refine ⟨n * 2 ^ i, ?_⟩
  have hone : (2 : ℚ) ^ (j + i) * 2 ^ k = 1 := by
    rw [hi, zpow_neg, zpow_natCast]
    exact mul_inv_cancel₀ (by positivity)
  calc (n : ℚ) = n * (2 ^ (j + i) * 2 ^ k) := by rw [hone, mul_one]
    _ = 2 ^ j * (n * 2 ^ i : ℕ) * 2 ^ k := by
      rw [pow_add]
      push_cast
      ring

/-- A number well below its bits has a small unit. -/
theorem unit_le_of_lt {j : ℕ} (hlow : 2 ^ p ≤ 2 * x) (h : 2 ^ j * (x * 2 ^ k) < 2 ^ p) :
    k ≤ -(j : ℤ) := by
  have hpow : (0 : ℚ) < 2 ^ p := by positivity
  by_contra hgt
  have hunit : (2 : ℚ) ≤ 2 ^ j * 2 ^ k := by
    rw [two_pow_mul_unit]
    calc (2 : ℚ) = 2 ^ (1 : ℤ) := (zpow_one 2).symm
      _ ≤ 2 ^ ((j : ℤ) + k) := zpow_le_zpow_right₀ (by decide) (by omega)
  have hle := mul_le_mul_of_nonneg_left hunit (show 0 ≤ x by linarith)
  linarith

/-- Whole numbers of at most `p` bits are kept. -/
theorem roundBits_natCast (h : n < 2 ^ p) : roundBits p n = n := by
  rcases Nat.eq_zero_or_pos n with rfl | hpos
  · rw [Nat.cast_zero, roundBits_zero]
  obtain ⟨x, k, hlow, hhigh, hx⟩ := exists_significand (q := n) p (by exact_mod_cast hpos)
  have hk : k ≤ -((0 : ℕ) : ℤ) := by
    apply unit_le_of_lt hlow
    rw [← hx, pow_zero, one_mul]
    exact_mod_cast h
  obtain ⟨m, hm⟩ := exists_natCast_eq n hk
  have hxm : x = m := mul_right_cancel₀ (unit_pos k).ne' (by rw [← hx, hm]; ring)
  rw [hx, roundBits_significand hlow hhigh, hxm, nearestEven_natCast]

/-! ## Tenths -/

/-- Rounded, ten times a significand near a multiple of 16 is that multiple. -/
theorem roundBits_mul_ten {r m : ℕ} (hp : 0 < p) (hlow : (2 : ℚ) ^ p ≤ 2 * r)
    (hhigh : (r : ℚ) ≤ 2 ^ p) (hup : 10 * r ≤ 16 * m + 4) (hdown : 16 * m ≤ 10 * r + 4) :
    roundBits p (r * 2 ^ k * 10) = 2 ^ 4 * m * 2 ^ k := by
  have hupq : (10 : ℚ) * r ≤ 16 * m + 4 := by exact_mod_cast hup
  have hdownq : (16 : ℚ) * m ≤ 10 * r + 4 := by exact_mod_cast hdown
  have hpow : (0 : ℚ) < 2 ^ p := by positivity
  -- the product has three bits more than the significand, or four
  rcases le_or_gt ((10 : ℚ) * r) (8 * 2 ^ p) with hsmall | hlarge
  · have hscaled : (r : ℚ) * 2 ^ k * 10 = 10 * r / 8 * 2 ^ (k + 3) := by
      rw [zpow_add₀ (by decide)]
      ring
    have hnearest : nearestEven (10 * r / 8) = 2 * m := by
      apply nearestEven_eq (by positivity)
      · push_cast
        rw [abs_le]
        constructor <;> linarith
      · exact fun _ => Nat.mul_mod_right 2 m
    rw [hscaled, roundBits_carry hp (by linarith) (by linarith), hnearest, zpow_add₀ (by decide)]
    push_cast
    ring
  · have hscaled : (r : ℚ) * 2 ^ k * 10 = 10 * r / 16 * 2 ^ (k + 4) := by
      rw [zpow_add₀ (by decide)]
      ring
    have hquarter : |(10 : ℚ) * r / 16 - m| ≤ 1 / 4 := by
      rw [abs_le]
      constructor <;> linarith
    have hnearest : nearestEven (10 * r / 16) = m :=
      nearestEven_eq (by positivity) (by linarith) fun htie => by linarith
    rw [hscaled, roundBits_carry hp (by linarith) (by linarith), hnearest, zpow_add₀ (by decide)]
    ring

/-- A whole number survives a division and a multiplication by ten, both rounded. -/
theorem roundBits_tenth_mul_ten (hp : 0 < p) (h : 2 * n < 2 ^ p) :
    roundBits p (roundBits p (n / 10) * 10) = n := by
  rcases Nat.eq_zero_or_pos n with rfl | hpos
  · simp
  have hpow : (0 : ℚ) < 2 ^ p := by positivity
  have hposq : (0 : ℚ) < n := by exact_mod_cast hpos
  have hq : (2 : ℚ) * n < 2 ^ p := by exact_mod_cast h
  obtain ⟨x, k, hlow, hhigh, hx⟩ := exists_significand (q := n / 10) p (by positivity)
  have hk : k ≤ -((4 : ℕ) : ℤ) := by
    apply unit_le_of_lt hlow
    rw [← hx]
    linarith
  obtain ⟨m, hm⟩ := exists_natCast_eq n hk
  have hten : 10 * x = 16 * m :=
    mul_right_cancel₀ (unit_pos k).ne' (by linarith)
  obtain ⟨hup, hdown⟩ := ten_nearestEven_near (by linarith) hten
  obtain ⟨hrlow, hrhigh⟩ := nearestEven_significand hp hlow hhigh
  calc roundBits p (roundBits p (n / 10) * 10) = roundBits p (nearestEven x * 2 ^ k * 10) := by
        rw [hx, roundBits_significand hlow hhigh]
    _ = 2 ^ 4 * m * 2 ^ k := roundBits_mul_ten hp hrlow hrhigh hup hdown
    _ = n := hm.symm

end SignificantBits
