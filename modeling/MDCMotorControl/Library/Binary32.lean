import Mathlib.Data.Rat.Floor
import Mathlib.Data.Int.Log
import Mathlib.Tactic.Linarith
import Mathlib.Tactic.Positivity
import Mathlib.Tactic.Ring

/-!
# Single-precision words

The 32-bit pattern of a finite single-precision number, and the number of a
pattern.  Numbers are exact rationals; the exponent field 255 (infinities and
not-a-numbers) is read by the same formula as the others and denotes no number
that arithmetic below overflow produces.

Main definitions and results:

- Definition `decode`: the number a 32-bit pattern stands for.
- Definition `encode`: the pattern of a number that has one.
- Definition `round`: the nearest number that has a pattern, ties to even.
- Theorem `Representable.decode_encode`: a number that has a pattern is read back
  from it.
- Theorems `representable_decode` and `representable_round`: which numbers have
  one.
-/

namespace Binary32

/-! ## Words and numbers -/

/-- The number of a 32-bit pattern: sign, eight exponent bits, 23 fraction bits. -/
def decode (bits : BitVec 32) : ℚ :=
  let exponent := bits.toNat / 2 ^ 23 % 2 ^ 8
  let fraction := bits.toNat % 2 ^ 23
  let significand := if exponent = 0 then fraction else 2 ^ 23 + fraction
  -- the unit in the last place is 2 ^ (scale - 150)
  let scale := if exponent = 0 then 1 else exponent
  let magnitude : ℚ :=
    if 150 ≤ scale then ((significand * 2 ^ (scale - 150) : Nat) : ℚ)
    else mkRat significand (2 ^ (150 - scale))
  if bits.msb then -magnitude else magnitude

/-- The exponent of a nonzero number, with the bound that makes small numbers
subnormal. -/
def exponentOf (q : ℚ) : ℤ :=
  max (Int.log 2 |q|) (-126)

/-- The pattern of a number that has one; a significand of more than 24 bits is cut
off.  The leading bit of a normal significand carries into the exponent field. -/
def encode (q : ℚ) : BitVec 32 :=
  if q = 0 then 0
  else
    let exponent := exponentOf q
    let significand := (|q| * 2 ^ (23 - exponent)).floor.toNat
    let sign := if q < 0 then 2 ^ 31 else 0
    BitVec.ofNat 32 (sign + (exponent + 126).toNat * 2 ^ 23 + significand)

/-- The natural number nearest to a nonnegative number, the even one of two. -/
def nearestEven (x : ℚ) : ℕ :=
  let n := x.floor.toNat
  if x - n < 1 / 2 ∨ x - n = 1 / 2 ∧ n % 2 = 0 then n else n + 1

/-- Rounding to nearest, ties to even. -/
def round (q : ℚ) : ℚ :=
  if q = 0 then 0
  else
    let exponent := exponentOf q
    let magnitude : ℚ := nearestEven (|q| * 2 ^ (23 - exponent)) * 2 ^ (exponent - 23)
    if q < 0 then -magnitude else magnitude

example : decode 0x41000000 = 8 := by decide +kernel

example : decode 0x3F000000 = 1 / 2 := by decide +kernel

example : encode (round (1 / 10)) = 0x3DCCCCCD := by decide +kernel

example : encode (round (-1 / 2 ^ 149)) = 0x80000001 := by decide +kernel

/-! ## Numbers that have a pattern -/

/-- The number with a sign, a significand and the unit `2 ^ (k - 150)`. -/
def value (neg : Bool) (m k : ℕ) : ℚ :=
  if neg then -(m * 2 ^ ((k : ℤ) - 150)) else m * 2 ^ ((k : ℤ) - 150)

/-- The significand has 24 bits, or fewer with the smallest unit. -/
structure Normalized (m k : ℕ) : Prop where
  lt : m < 2 ^ 24
  one_le : 1 ≤ k
  le : k ≤ 255
  normal : 2 ^ 23 ≤ m ∨ k = 1

/-- The number has a pattern. -/
def Representable (q : ℚ) : Prop :=
  ∃ neg m k, Normalized m k ∧ q = value neg m k

theorem decode_eq_value (bits : BitVec 32) :
    decode bits = value bits.msb
      (if bits.toNat / 2 ^ 23 % 2 ^ 8 = 0 then bits.toNat % 2 ^ 23
        else 2 ^ 23 + bits.toNat % 2 ^ 23)
      (if bits.toNat / 2 ^ 23 % 2 ^ 8 = 0 then 1 else bits.toNat / 2 ^ 23 % 2 ^ 8) := by
  have hmagnitude : ∀ m k : ℕ,
      (if 150 ≤ k then ((m * 2 ^ (k - 150) : ℕ) : ℚ) else mkRat m (2 ^ (150 - k))) =
        m * 2 ^ ((k : ℤ) - 150) := by
    intro m k
    split
    · rename_i hk
      have hexp : (k : ℤ) - 150 = ((k - 150 : ℕ) : ℤ) := by omega
      rw [hexp, zpow_natCast]
      push_cast
      rfl
    · rename_i hk
      have hexp : (k : ℤ) - 150 = -((150 - k : ℕ) : ℤ) := by omega
      rw [hexp, zpow_neg, zpow_natCast, Rat.mkRat_eq_div]
      push_cast
      rfl
  simp only [decode, hmagnitude, value]

/-- What a pattern stands for. -/
theorem representable_decode (bits : BitVec 32) : Representable (decode bits) := by
  refine ⟨_, _, _, ?_, decode_eq_value bits⟩
  by_cases h : bits.toNat / 2 ^ 23 % 2 ^ 8 = 0
  · simp only [if_pos h]
    exact ⟨by omega, le_rfl, by omega, .inr rfl⟩
  · simp only [if_neg h]
    exact ⟨by omega, by omega, by omega, .inl (by omega)⟩

theorem representable_of_decode {bits : BitVec 32} {q : ℚ} (h : decode bits = q) :
    Representable q := by
  rw [← h]
  exact representable_decode bits

theorem representable_zero : Representable 0 :=
  ⟨false, 0, 1, ⟨by decide, le_rfl, by decide, .inr rfl⟩, by simp [value]⟩

/-- The unit is a positive power of two. -/
theorem unit_pos (k : ℤ) : (0 : ℚ) < 2 ^ k :=
  zpow_pos (by decide) k

theorem abs_value (neg : Bool) (m k : ℕ) : |value neg m k| = m * 2 ^ ((k : ℤ) - 150) := by
  have hnonneg : (0 : ℚ) ≤ m * 2 ^ ((k : ℤ) - 150) :=
    mul_nonneg (Nat.cast_nonneg m) (unit_pos _).le
  cases neg with
  | false => exact abs_of_nonneg hnonneg
  | true => rw [value, if_pos rfl, abs_neg, abs_of_nonneg hnonneg]

/-- The exponent of a number that has a pattern. -/
theorem exponentOf_value {neg : Bool} {m k : ℕ} (h : Normalized m k) (hm : m ≠ 0) :
    exponentOf (value neg m k) = (k : ℤ) - 127 := by
  have hpos : (0 : ℚ) < m * 2 ^ ((k : ℤ) - 150) :=
    mul_pos (by exact_mod_cast Nat.pos_of_ne_zero hm) (unit_pos _)
  have hupper : Int.log 2 ((m : ℚ) * 2 ^ ((k : ℤ) - 150)) < (k : ℤ) - 126 := by
    rw [← Int.lt_zpow_iff_log_lt (by decide) hpos]
    have hsplit : ((2 : ℕ) : ℚ) ^ ((k : ℤ) - 126) = 2 ^ 24 * 2 ^ ((k : ℤ) - 150) := by
      rw [Nat.cast_ofNat, ← zpow_natCast, ← zpow_add₀ (by decide)]
      congr 1
      omega
    rw [hsplit]
    have hlt : (m : ℚ) < 2 ^ 24 := by exact_mod_cast h.lt
    exact mul_lt_mul_of_pos_right hlt (unit_pos _)
  rw [exponentOf, abs_value]
  rcases h.normal with hnormal | rfl
  · have hlower : (k : ℤ) - 127 ≤ Int.log 2 ((m : ℚ) * 2 ^ ((k : ℤ) - 150)) := by
      rw [← Int.zpow_le_iff_le_log (by decide) hpos]
      have hsplit : ((2 : ℕ) : ℚ) ^ ((k : ℤ) - 127) = 2 ^ 23 * 2 ^ ((k : ℤ) - 150) := by
        rw [Nat.cast_ofNat, ← zpow_natCast, ← zpow_add₀ (by decide)]
        congr 1
        omega
      rw [hsplit]
      have hle : (2 : ℚ) ^ 23 ≤ m := by exact_mod_cast hnormal
      exact mul_le_mul_of_nonneg_right hle (unit_pos _).le
    have hone := h.one_le
    omega
  · omega

/-- The pattern of a number that has one. -/
theorem encode_value {neg : Bool} {m k : ℕ} (h : Normalized m k) (hm : m ≠ 0) :
    encode (value neg m k) =
      BitVec.ofNat 32 ((if neg then 2 ^ 31 else 0) + (k - 1) * 2 ^ 23 + m) := by
  have hpos : (0 : ℚ) < m * 2 ^ ((k : ℤ) - 150) :=
    mul_pos (by exact_mod_cast Nat.pos_of_ne_zero hm) (unit_pos _)
  have hne : value neg m k ≠ 0 := by
    rw [← abs_pos, abs_value]
    exact hpos
  have hsign : value neg m k < 0 ↔ neg = true := by
    cases neg with
    | false => simpa [value] using hpos.le
    | true => simpa [value] using hpos
  have hsignificand : |value neg m k| * 2 ^ (23 - ((k : ℤ) - 127)) = m := by
    have hexp : (k : ℤ) - 150 + (23 - ((k : ℤ) - 127)) = 0 := by omega
    rw [abs_value, mul_assoc, ← zpow_add₀ (by decide), hexp, zpow_zero, mul_one]
  have hfield : ((k : ℤ) - 127 + 126).toNat = k - 1 := by omega
  rw [encode, if_neg hne]
  simp only [exponentOf_value h hm, hsignificand, hfield, hsign]
  congr 2

/-- A pattern is read field by field. -/
theorem decode_pattern {neg : Bool} {m k : ℕ} (h : Normalized m k) :
    decode (BitVec.ofNat 32 ((if neg then 2 ^ 31 else 0) + (k - 1) * 2 ^ 23 + m)) =
      value neg m k := by
  obtain ⟨hlt, hone, hle, hnormal⟩ := h
  set n := (if neg then 2 ^ 31 else 0) + (k - 1) * 2 ^ 23 + m with hn
  have hsign : (if neg then 2 ^ 31 else 0) + ((k - 1) * 2 ^ 23 + m) = n := by omega
  have hbits : (BitVec.ofNat 32 n).toNat = n := by
    rw [BitVec.toNat_ofNat]
    apply Nat.mod_eq_of_lt
    split at hn <;> omega
  have hmsb : (BitVec.ofNat 32 n).msb = neg := by
    rw [BitVec.msb_eq_decide, hbits]
    cases neg with
    | false =>
        simp only [Bool.false_eq_true, if_false] at hn
        simp only [decide_eq_false_iff_not]
        omega
    | true =>
        simp only [if_true] at hn
        simp only [decide_eq_true_eq]
        omega
  have hexponent : n / 2 ^ 23 % 2 ^ 8 = if m < 2 ^ 23 then 0 else k := by
    split at hn <;> split <;> omega
  have hfraction : n % 2 ^ 23 = if m < 2 ^ 23 then m else m - 2 ^ 23 := by
    split at hn <;> split <;> omega
  rw [decode_eq_value, hbits, hmsb, hexponent, hfraction]
  by_cases hm : m < 2 ^ 23
  · have hk : k = 1 := by omega
    simp only [if_pos hm, if_true, hk]
  · have hk : k ≠ 0 := by omega
    have hsum : 2 ^ 23 + (m - 2 ^ 23) = m := by omega
    simp only [if_neg hm, if_neg hk, hsum]

/-- A number that has a pattern is read back from it. -/
theorem Representable.decode_encode {q : ℚ} (h : Representable q) : decode (encode q) = q := by
  obtain ⟨neg, m, k, hnormalized, rfl⟩ := h
  by_cases hm : m = 0
  · subst hm
    have hzero : value neg 0 k = 0 := by
      cases neg <;> simp [value]
    rw [hzero]
    decide +kernel
  · rw [encode_value hnormalized hm, decode_pattern hnormalized]

/-! ## Rounding -/

theorem nearestEven_le {x : ℚ} {n : ℕ} (hx : 0 ≤ x) (h : x < n) : nearestEven x ≤ n := by
  have hfloor : x.floor < n := Rat.floor_lt_iff.mpr (by exact_mod_cast h)
  have hnonneg : 0 ≤ x.floor := Rat.le_floor_iff.mpr (by exact_mod_cast hx)
  unfold nearestEven
  simp only
  split <;> omega

theorem le_nearestEven {x : ℚ} {n : ℕ} (h : n ≤ x) : n ≤ nearestEven x := by
  have hfloor : (n : ℤ) ≤ x.floor := Rat.le_floor_iff.mpr (by exact_mod_cast h)
  unfold nearestEven
  simp only
  split <;> omega

/-- The significand of a number, before rounding, has at most 24 bits. -/
theorem scaled_lt (q : ℚ) : |q| * 2 ^ (23 - exponentOf q) < ((2 ^ 24 : ℕ) : ℚ) := by
  have hlog : |q| < 2 ^ (exponentOf q + 1) := by
    apply lt_of_lt_of_le (Int.lt_zpow_succ_log_self (b := 2) (by decide) |q|)
    rw [Nat.cast_ofNat]
    exact zpow_le_zpow_right₀ (by decide) (by unfold exponentOf; omega)
  have hsplit : (2 : ℚ) ^ (exponentOf q + 1) * 2 ^ (23 - exponentOf q) = ((2 ^ 24 : ℕ) : ℚ) := by
    have hexp : exponentOf q + 1 + (23 - exponentOf q) = ((24 : ℕ) : ℤ) := by omega
    rw [← zpow_add₀ (by decide), hexp, zpow_natCast]
    push_cast
    rfl
  rw [← hsplit]
  exact mul_lt_mul_of_pos_right hlog (unit_pos _)

/-- It has exactly 24 bits, unless the unit is the smallest one. -/
theorem le_scaled {q : ℚ} (hq : q ≠ 0) (h : exponentOf q ≠ -126) :
    ((2 ^ 23 : ℕ) : ℚ) ≤ |q| * 2 ^ (23 - exponentOf q) := by
  have hexponent : Int.log 2 |q| = exponentOf q := by
    unfold exponentOf at h ⊢
    omega
  have hlog : 2 ^ exponentOf q ≤ |q| := by
    have hself := Int.zpow_log_le_self (b := 2) (by decide) (abs_pos.mpr hq)
    rwa [hexponent, Nat.cast_ofNat] at hself
  have hsplit : (2 : ℚ) ^ exponentOf q * 2 ^ (23 - exponentOf q) = ((2 ^ 23 : ℕ) : ℚ) := by
    have hexp : exponentOf q + (23 - exponentOf q) = ((23 : ℕ) : ℤ) := by omega
    rw [← zpow_add₀ (by decide), hexp, zpow_natCast]
    push_cast
    rfl
  rw [← hsplit]
  exact mul_le_mul_of_nonneg_right hlog (unit_pos _).le

/-- A rounded number has a pattern; rounding up may carry into the next exponent. -/
theorem representable_round {q : ℚ} (hq : |q| < 2 ^ 127) : Representable (round q) := by
  by_cases hzero : q = 0
  · rw [round, if_pos hzero]
    exact representable_zero
  set e := exponentOf q with he
  set m := nearestEven (|q| * 2 ^ (23 - e)) with hm
  have hlower : -126 ≤ e := le_max_right _ _
  have hupper : e ≤ 126 := by
    have hlog : Int.log 2 |q| < 127 := by
      rw [← Int.lt_zpow_iff_log_lt (by decide) (abs_pos.mpr hzero), Nat.cast_ofNat]
      exact_mod_cast hq
    rw [he, exponentOf]
    omega
  have hle : m ≤ 2 ^ 24 := by
    apply nearestEven_le (mul_nonneg (abs_nonneg q) (unit_pos _).le)
    exact scaled_lt q
  have hnormal : 2 ^ 23 ≤ m ∨ (e + 127).toNat = 1 := by
    by_cases hsmall : e = -126
    · exact .inr (by omega)
    · exact .inl (le_nearestEven (le_scaled hzero hsmall))
  have hround : round q = if decide (q < 0) then -((m : ℚ) * 2 ^ (e - 23))
      else m * 2 ^ (e - 23) := by
    rw [round, if_neg hzero]
    simp only [decide_eq_true_eq, hm, he]
  rcases Nat.lt_or_eq_of_le hle with hlt | hcarry
  · refine ⟨decide (q < 0), m, (e + 127).toNat, ⟨hlt, by omega, by omega, hnormal⟩, ?_⟩
    have hexp : ((e + 127).toNat : ℤ) - 150 = e - 23 := by omega
    rw [hround, value, hexp]
  · refine ⟨decide (q < 0), 2 ^ 23, (e + 128).toNat,
      ⟨by decide, by omega, by omega, .inl le_rfl⟩, ?_⟩
    have hexp : ((e + 128).toNat : ℤ) - 150 = e - 23 + 1 := by omega
    have hcarried : ((2 ^ 24 : ℕ) : ℚ) * 2 ^ (e - 23) = (2 ^ 23 : ℕ) * 2 ^ (e - 23 + 1) := by
      rw [zpow_add₀ (by decide)]
      push_cast
      ring
    rw [hround, value, hexp, hcarry, hcarried]

end Binary32
