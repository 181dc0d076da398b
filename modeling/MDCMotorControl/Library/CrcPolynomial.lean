import MDCMotorControl.Library.CrcRegister
import Mathlib.Algebra.CharP.Two
import Mathlib.Algebra.Field.ZMod
import Mathlib.Algebra.Polynomial.Div

/-!
# Checksums as polynomial division

The bits of a word are the coefficients of a polynomial over `GF(2)`, and the bits of a
text, in the order in which the register consumes them, are those of its message
polynomial, the leading one first.  The divisor is the polynomial of the register with
the power that its width stands for.

A clock multiplies the register by `X` and takes the divisor away when a one falls out,
so the register always holds a remainder.

Main results:

- Theorem `generator_dvd_clock`: one clock, up to multiples of the divisor.
- Theorem `toPoly_digest`: the register after a text is the remainder of the initial
  value and the text, shifted by the width of the register.
-/

namespace CrcRegister

open Polynomial

variable {w : ℕ}

/-! ## Words as polynomials -/

/-- The polynomial with the bits of a word as its coefficients. -/
noncomputable def toPoly (v : BitVec w) : (ZMod 2)[X] :=
  ∑ i ∈ Finset.range w, if v.getLsbD i then X ^ i else 0

/-- The divisor of a register. -/
noncomputable def generator (poly : BitVec w) : (ZMod 2)[X] :=
  X ^ w + toPoly poly

/-- The polynomial of a text, its first bit the coefficient of the highest power. -/
noncomputable def messagePoly (ws : List (BitVec w)) : (ZMod 2)[X] :=
  ∑ k ∈ Finset.range (w * ws.length), if bitAt ws k then X ^ (w * ws.length - 1 - k) else 0

/-- The coefficients of the polynomial of a word are its bits. -/
theorem coeff_toPoly (v : BitVec w) (i : ℕ) :
    (toPoly v).coeff i = if v.getLsbD i then 1 else 0 := by
  have hterm : ∀ j, (if v.getLsbD j then (X : (ZMod 2)[X]) ^ j else 0).coeff i =
      if i = j then (if v.getLsbD i then 1 else 0) else 0 := by
    intro j
    by_cases hij : i = j
    · subst hij
      split <;> simp
    · rw [if_neg hij]
      split
      · rw [coeff_X_pow, if_neg hij]
      · exact coeff_zero i
  rw [toPoly, finsetSum_coeff, Finset.sum_congr rfl fun j _ => hterm j, Finset.sum_ite_eq]
  split
  · rfl
  · rename_i hi
    rw [BitVec.getLsbD_of_ge v i (by simpa using hi)]
    rfl

theorem degree_toPoly_lt (v : BitVec w) : (toPoly v).degree < w := by
  rw [degree_lt_iff_coeff_zero]
  intro i hi
  rw [coeff_toPoly, BitVec.getLsbD_of_ge v i hi]
  rfl

theorem toPoly_zero : toPoly 0#w = 0 := by
  ext i
  simp [coeff_toPoly]

/-- Exclusive or adds the polynomials. -/
theorem toPoly_xor (a b : BitVec w) : toPoly (a ^^^ b) = toPoly a + toPoly b := by
  ext i
  rw [coeff_add, coeff_toPoly, coeff_toPoly, coeff_toPoly, BitVec.getLsbD_xor]
  cases a.getLsbD i <;> cases b.getLsbD i <;> decide

/-- A shift multiplies by `X`, less the bit that falls out. -/
theorem toPoly_shiftLeft_one (v : BitVec w) :
    toPoly (v <<< 1) = X * toPoly v + if v.msb then X ^ w else 0 := by
  have hfallen : ∀ j, (if v.msb then (X : (ZMod 2)[X]) ^ w else 0).coeff j =
      if j = w ∧ v.msb = true then 1 else 0 := by
    intro j
    cases v.msb <;> simp [coeff_X_pow]
  ext i
  rw [coeff_add, coeff_toPoly, BitVec.getLsbD_shiftLeft, hfallen]
  cases i with
  | zero =>
      have hzero : ¬ (0 = w ∧ v.msb = true) := by
        rintro ⟨rfl, hmsb⟩
        have hempty : v = 0#0 := BitVec.of_length_zero
        rw [hempty] at hmsb
        cases hmsb
      rw [if_neg hzero, mul_coeff_zero, coeff_X_zero, zero_mul]
      simp
  | succ i =>
      rw [coeff_X_mul, coeff_toPoly, BitVec.msb_eq_getLsbD_last]
      rcases lt_trichotomy (i + 1) w with hlt | heq | hgt
      · -- the bit stays in the register
        have hstays : i + 1 ≠ w := by omega
        simp [hlt, hstays]
      · -- the bit falls out
        have hlast : w - 1 = i := by omega
        rw [hlast]
        cases v.getLsbD i <;> simp [heq, CharTwo.add_self_eq_zero]
      · have hbeyond : i + 1 ≠ w ∧ ¬ i + 1 < w := by omega
        rw [BitVec.getLsbD_of_ge v i (by omega)]
        simp [hbeyond]

/-- A clock multiplies by `X`, up to a multiple of the divisor. -/
theorem generator_dvd_clock (poly reg : BitVec w) :
    generator poly ∣ X * toPoly reg - toPoly (clock poly reg) := by
  rw [clock]
  split
  · rename_i hmsb
    refine ⟨1, ?_⟩
    rw [toPoly_xor, toPoly_shiftLeft_one, if_pos hmsb, generator, CharTwo.sub_eq_add, add_assoc,
      ← add_assoc, CharTwo.add_self_eq_zero, zero_add, mul_one]
  · rename_i hmsb
    rw [toPoly_shiftLeft_one, if_neg hmsb, add_zero, sub_self]
    exact dvd_zero _

theorem generator_dvd_clocks (poly : BitVec w) (n : ℕ) (reg : BitVec w) :
    generator poly ∣ X ^ n * toPoly reg - toPoly (clocks poly n reg) := by
  induction n generalizing reg with
  | zero => simp [clocks]
  | succ n ih =>
      have hfirst := (generator_dvd_clock poly reg).mul_left (X ^ n)
      have hsum := dvd_add hfirst (ih (clock poly reg))
      have hsplit : X ^ (n + 1) * toPoly reg - toPoly (clocks poly (n + 1) reg) =
          X ^ n * (X * toPoly reg - toPoly (clock poly reg)) +
            (X ^ n * toPoly (clock poly reg) - toPoly (clocks poly n (clock poly reg))) := by
        rw [clocks]
        ring
      rw [hsplit]
      exact hsum

theorem generator_dvd_absorb (poly reg word : BitVec w) :
    generator poly ∣ (toPoly reg + toPoly word) * X ^ w - toPoly (absorb poly reg word) := by
  rw [absorb, ← toPoly_xor, mul_comm]
  exact generator_dvd_clocks poly w _

/-! ## Texts as polynomials -/

theorem messagePoly_nil : messagePoly ([] : List (BitVec w)) = 0 := by
  simp [messagePoly]

/-- The first word of a text stands before the others. -/
theorem messagePoly_cons (x : BitVec w) (ws : List (BitVec w)) :
    messagePoly (x :: ws) = toPoly x * X ^ (w * ws.length) + messagePoly ws := by
  rcases Nat.eq_zero_or_pos w with rfl | hw
  · simp [messagePoly, toPoly]
  have hlen : w * (x :: ws).length = w + w * ws.length := by
    rw [List.length_cons, Nat.mul_succ, Nat.add_comm]
  rw [messagePoly, hlen, Finset.sum_range_add]
  congr 1
  · rw [toPoly, ← Finset.sum_range_reflect, Finset.sum_mul]
    apply Finset.sum_congr rfl
    intro k hk
    have hlt : k < w := Finset.mem_range.mp hk
    have hbit : bitAt (x :: ws) (w - 1 - k) = x.getLsbD k := by
      have hreflected : w - 1 - k < w := by omega
      have hback : w - 1 - (w - 1 - k) = k := by omega
      have hword := bitAt_word (x :: ws) 0 hreflected
      rw [Nat.zero_mul, Nat.zero_add] at hword
      rw [hword, List.getD_cons_zero, BitVec.getMsbD_eq_getLsbD, decide_eq_true hreflected,
        Bool.true_and, hback]
    have hpower : w + w * ws.length - 1 - (w - 1 - k) = k + w * ws.length := by omega
    rw [hbit, hpower, ite_mul, zero_mul, pow_add]
  · apply Finset.sum_congr rfl
    intro k _
    have hpower : w + w * ws.length - 1 - (w + k) = w * ws.length - 1 - k := by omega
    rw [hpower, Nat.add_comm w k, bitAt_cons_add x ws hw]

/-- The register after a text, up to a multiple of the divisor. -/
theorem generator_dvd_digest (poly init : BitVec w) (ws : List (BitVec w)) :
    generator poly ∣ toPoly init * X ^ (w * ws.length) + messagePoly ws * X ^ w -
      toPoly (digest poly init ws) := by
  induction ws generalizing init with
  | nil => simp [messagePoly_nil, digest]
  | cons x ws ih =>
      have hhead := (generator_dvd_absorb poly init x).mul_right (X ^ (w * ws.length))
      have hsum := dvd_add hhead (ih (absorb poly init x))
      have hdigest : digest poly init (x :: ws) = digest poly (absorb poly init x) ws := rfl
      have hsplit : toPoly init * X ^ (w * (x :: ws).length) + messagePoly (x :: ws) * X ^ w -
            toPoly (digest poly init (x :: ws)) =
          ((toPoly init + toPoly x) * X ^ w - toPoly (absorb poly init x)) *
              X ^ (w * ws.length) +
            (toPoly (absorb poly init x) * X ^ (w * ws.length) + messagePoly ws * X ^ w -
              toPoly (digest poly (absorb poly init x) ws)) := by
        rw [hdigest, messagePoly_cons, List.length_cons, Nat.mul_succ, pow_add]
        ring
      rw [hsplit]
      exact hsum

theorem generator_monic (poly : BitVec w) : (generator poly).Monic :=
  monic_X_pow_add (degree_toPoly_lt poly)

theorem degree_generator (poly : BitVec w) : (generator poly).degree = w := by
  have hlower : (toPoly poly).degree < (X ^ w : (ZMod 2)[X]).degree := by
    rw [degree_X_pow]
    exact degree_toPoly_lt poly
  rw [generator, degree_add_eq_left_of_degree_lt hlower, degree_X_pow]

/-- The register after a text is the remainder of its initial value followed by the
text and a word of zeros. -/
theorem toPoly_digest (poly init : BitVec w) (ws : List (BitVec w)) :
    toPoly (digest poly init ws) =
      (toPoly init * X ^ (w * ws.length) + messagePoly ws * X ^ w) %ₘ generator poly := by
  have hdegree : (toPoly (digest poly init ws)).degree < (generator poly).degree := by
    rw [degree_generator]
    exact degree_toPoly_lt _
  rw [modByMonic_eq_of_dvd_sub (generator_monic poly) (generator_dvd_digest poly init ws),
    (modByMonic_eq_self_iff (generator_monic poly)).mpr hdegree]

end CrcRegister
