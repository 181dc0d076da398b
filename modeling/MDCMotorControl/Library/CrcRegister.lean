import Mathlib.Data.Nat.Notation
import Mathlib.Data.List.Basic
import Mathlib.Tactic.Common

/-!
# Shift-register checksums

A cyclic redundancy register of any width, fed most significant bit first: one
clock shifts the register left and subtracts the polynomial when a one falls
out.

The register is linear over exclusive or, so what an error does to a checksum
depends on the error pattern alone.  When the polynomial has a constant term, no
clock loses anything, and a burst no longer than the register changes it.

Main definitions:

- Definition `clock`: one shift of the register.
- Definition `absorb`: mix one word in and clock the register a number of times.
- Definition `digest`: absorb a list of words.
- Definition `Burst`: a pattern whose set bits are close together.

Main results:

- Theorem `digest_xor`: the checksum of a sum is the sum of the checksums.
- Theorem `digest_burst_ne_zero`: the checksum of a burst is not zero.
- Theorem `digest_ne_of_burst`: texts that differ in a burst have different checksums.
-/

namespace CrcRegister

variable {w : ℕ}

/-- One shift of the register. -/
def clock (poly reg : BitVec w) : BitVec w :=
  if reg.msb then (reg <<< 1) ^^^ poly else reg <<< 1

/-- Several shifts of the register. -/
def clocks (poly : BitVec w) : ℕ → BitVec w → BitVec w
  | 0, reg => reg
  | n + 1, reg => clocks poly n (clock poly reg)

/-- Mix one word of the width of the register in, and shift all of it through. -/
def absorb (poly reg word : BitVec w) : BitVec w :=
  clocks poly w (reg ^^^ word)

/-- The register after a list of words. -/
def digest (poly init : BitVec w) (words : List (BitVec w)) : BitVec w :=
  words.foldl (absorb poly) init

/-! ## Linearity -/

section Linear

variable (poly a b : BitVec w)

theorem clock_xor : clock poly (a ^^^ b) = clock poly a ^^^ clock poly b := by
  have hcancel : ∀ x y : BitVec w, x ^^^ y = x ^^^ poly ^^^ (y ^^^ poly) := by
    intro x y
    calc
      x ^^^ y = x ^^^ y ^^^ (poly ^^^ poly) := by rw [BitVec.xor_self, BitVec.xor_zero]
      _ = x ^^^ poly ^^^ (y ^^^ poly) := by ac_rfl
  simp only [clock, BitVec.msb_xor, BitVec.shiftLeft_xor_distrib]
  cases a.msb <;> cases b.msb
  · rfl
  · exact BitVec.xor_assoc _ _ _
  · show a <<< 1 ^^^ b <<< 1 ^^^ poly = a <<< 1 ^^^ poly ^^^ b <<< 1
    ac_rfl
  · exact hcancel _ _

@[simp] theorem clock_zero : clock poly 0#w = 0#w := by
  simp [clock]

theorem clocks_xor (n : ℕ) : clocks poly n (a ^^^ b) = clocks poly n a ^^^ clocks poly n b := by
  induction n generalizing a b with
  | zero => rfl
  | succ n ih => simp only [clocks, clock_xor, ih]

@[simp] theorem clocks_zero (n : ℕ) : clocks poly n 0#w = 0#w := by
  induction n with
  | zero => rfl
  | succ n ih => rw [clocks, clock_zero, ih]

theorem clocks_add (m n : ℕ) : clocks poly (m + n) a = clocks poly n (clocks poly m a) := by
  induction m generalizing a with
  | zero => rw [Nat.zero_add, clocks]
  | succ m ih => rw [Nat.succ_add, clocks, ih, clocks]

theorem absorb_xor (r s : BitVec w) :
    absorb poly (r ^^^ s) (a ^^^ b) = absorb poly r a ^^^ absorb poly s b := by
  rw [absorb, absorb, absorb, ← clocks_xor]
  congr 1
  ac_rfl

/-- The checksum of a sum of texts is the sum of their checksums. -/
theorem digest_xor {xs ys : List (BitVec w)} (hlen : xs.length = ys.length) :
    digest poly (a ^^^ b) (List.zipWith (· ^^^ ·) xs ys) =
      digest poly a xs ^^^ digest poly b ys := by
  induction xs generalizing ys a b with
  | nil =>
      obtain rfl : ys = [] := List.eq_nil_of_length_eq_zero hlen.symm
      rfl
  | cons x xs ih =>
      cases ys with
      | nil => cases hlen
      | cons y ys =>
          have htail := ih (absorb poly a x) (absorb poly b y) (Nat.succ.inj hlen)
          rw [← absorb_xor] at htail
          exact htail

end Linear

/-! ## Nothing is lost -/

section Odd

variable {poly : BitVec w}

/-- The lowest bit after a clock is the bit that fell out. -/
theorem getLsbD_clock_zero (hpoly : poly.getLsbD 0 = true) (reg : BitVec w) :
    (clock poly reg).getLsbD 0 = reg.msb := by
  unfold clock
  split
  · rename_i hmsb
    simp [hmsb, hpoly]
  · rename_i hmsb
    simpa using hmsb

/-- When nothing fell out, a clock is a shift. -/
theorem clock_of_msb {reg : BitVec w} (h : reg.msb = false) : clock poly reg = reg <<< 1 := by
  simp [clock, h]

theorem clock_eq_zero (hpoly : poly.getLsbD 0 = true) {reg : BitVec w}
    (h : clock poly reg = 0#w) : reg = 0#w := by
  have hmsb : reg.msb = false := by
    rw [← getLsbD_clock_zero hpoly reg, h, BitVec.getLsbD_zero]
  rw [clock_of_msb hmsb] at h
  apply BitVec.eq_of_getMsbD_eq
  intro i hi
  cases i with
  | zero => rw [← BitVec.msb_eq_getMsbD_zero, hmsb, BitVec.getMsbD_zero]
  | succ i =>
      rw [← BitVec.getMsbD_shiftLeft, h, BitVec.getMsbD_zero, BitVec.getMsbD_zero]

theorem clocks_eq_zero (hpoly : poly.getLsbD 0 = true) {n : ℕ} {reg : BitVec w}
    (h : clocks poly n reg = 0#w) : reg = 0#w := by
  induction n generalizing reg with
  | zero => exact h
  | succ n ih => exact clock_eq_zero hpoly (ih h)

/-- Zeros leave a register that is not zero so. -/
theorem digest_eq_zero_of_zeros (hpoly : poly.getLsbD 0 = true) {ws : List (BitVec w)}
    (hzero : ∀ x ∈ ws, x = 0#w) {reg : BitVec w} (h : digest poly reg ws = 0#w) : reg = 0#w := by
  induction ws generalizing reg with
  | nil => exact h
  | cons x ws ih =>
      have htail := ih (fun y hy => hzero y (List.mem_cons_of_mem x hy)) h
      rw [absorb, hzero x List.mem_cons_self, BitVec.xor_zero] at htail
      exact clocks_eq_zero hpoly htail

/-- A register followed by the word it holds ends at zero, and only then. -/
theorem absorb_eq_zero (hpoly : poly.getLsbD 0 = true) {reg word : BitVec w} :
    absorb poly reg word = 0#w ↔ reg = word := by
  rw [absorb]
  constructor
  · intro h
    exact BitVec.xor_eq_zero_iff.mp (clocks_eq_zero hpoly h)
  · rintro rfl
    rw [BitVec.xor_self, clocks_zero]

/-! ## Bursts -/

/-- While the top bits are clear, clocks only shift. -/
theorem clocks_of_top {n : ℕ} {reg : BitVec w} (h : ∀ i < n, reg.getMsbD i = false) :
    clocks poly n reg = reg <<< n := by
  induction n generalizing reg with
  | zero => rw [clocks, BitVec.shiftLeft_zero]
  | succ n ih =>
      have hmsb : reg.msb = false := by
        rw [BitVec.msb_eq_getMsbD_zero, h 0 n.succ_pos]
      rw [clocks, clock_of_msb hmsb, ih, ← BitVec.shiftLeft_add, Nat.add_comm]
      intro i hi
      rw [BitVec.getMsbD_shiftLeft]
      exact h (i + 1) (by omega)

/-- Clocks that end with clear low bits have let only zeros fall out. -/
theorem top_of_clocks (hpoly : poly.getLsbD 0 = true) {n : ℕ} (hn : n ≤ w) {reg : BitVec w}
    (h : ∀ i < n, (clocks poly n reg).getLsbD i = false) : ∀ i < n, reg.getMsbD i = false := by
  induction n with
  | zero => omega
  | succ n ih =>
      have hlast : clocks poly (n + 1) reg = clock poly (clocks poly n reg) :=
        clocks_add poly reg n 1
      have hmsb : (clocks poly n reg).msb = false := by
        rw [← getLsbD_clock_zero hpoly, ← hlast]
        exact h 0 n.succ_pos
      -- the last clock was a shift, so the low bits were clear one place lower before it
      have hbefore : ∀ i < n, (clocks poly n reg).getLsbD i = false := by
        intro i hi
        have hbit := h (i + 1) (by omega)
        rw [hlast, clock_of_msb hmsb, BitVec.getLsbD_shiftLeft] at hbit
        have hlt : i + 1 < w := by omega
        simpa [hlt] using hbit
      have htop := ih (by omega) hbefore
      intro i hi
      rcases Nat.lt_succ_iff_lt_or_eq.mp hi with hlt | rfl
      · exact htop i hlt
      · rw [clocks_of_top htop, BitVec.msb_eq_getMsbD_zero, BitVec.getMsbD_shiftLeft,
          Nat.zero_add] at hmsb
        exact hmsb

/-- A burst across a word boundary: what the first word leaves in the register is
not cancelled by the second, unless there was nothing. -/
theorem eq_zero_of_straddle (hpoly : poly.getLsbD 0 = true) {a b : BitVec w} {start : ℕ}
    (hstart : start ≤ w) (ha : ∀ i < start, a.getMsbD i = false)
    (hb : ∀ i, start ≤ i → b.getMsbD i = false) (h : clocks poly w a = b) : a = 0#w := by
  have hsplit : clocks poly (w - start) (a <<< start) = b := by
    rw [← clocks_of_top ha, ← clocks_add, Nat.add_sub_cancel' hstart, h]
  have hlow : ∀ i < w - start, (clocks poly (w - start) (a <<< start)).getLsbD i = false := by
    intro i hi
    have hbit := hb (w - 1 - i) (by omega)
    have hlt : w - 1 - i < w := by omega
    have hback : w - 1 - (w - 1 - i) = i := by omega
    rw [BitVec.getMsbD_eq_getLsbD, hback] at hbit
    rw [hsplit]
    simpa [hlt] using hbit
  have htop := top_of_clocks hpoly (Nat.sub_le w start) hlow
  apply BitVec.eq_of_getMsbD_eq
  intro i hi
  rw [BitVec.getMsbD_zero]
  by_cases hlt : i < start
  · exact ha i hlt
  · have hbit := htop (i - start) (by omega)
    rwa [BitVec.getMsbD_shiftLeft, Nat.sub_add_cancel (Nat.not_lt.mp hlt)] at hbit

end Odd

/-- The bits of a text, in the order in which the register consumes them. -/
def bitAt (ws : List (BitVec w)) (k : ℕ) : Bool :=
  (ws.getD (k / w) 0#w).getMsbD (k % w)

/-- All set bits of the text lie within as many consecutive places as the
register has. -/
def Burst (ws : List (BitVec w)) : Prop :=
  ∃ start, ∀ k, bitAt ws k = true → start ≤ k ∧ k < start + w

/-- Bit `i` of word `n`. -/
theorem bitAt_word (ws : List (BitVec w)) (n : ℕ) {i : ℕ} (hi : i < w) :
    bitAt ws (n * w + i) = (ws.getD n 0#w).getMsbD i := by
  have hw : 0 < w := by omega
  have hdiv : (n * w + i) / w = n := by
    rw [Nat.mul_comm, Nat.mul_add_div hw, Nat.div_eq_of_lt hi, Nat.add_zero]
  have hmod : (n * w + i) % w = i := by
    rw [Nat.mul_comm, Nat.mul_add_mod, Nat.mod_eq_of_lt hi]
  rw [bitAt, hdiv, hmod]

/-- Behind the text no bit is set. -/
theorem bitAt_of_length_le {ws : List (BitVec w)} {k : ℕ} (hw : 0 < w) (h : w * ws.length ≤ k) :
    bitAt ws k = false := by
  have hlen : ws.length ≤ k / w := by
    rw [Nat.le_div_iff_mul_le hw, Nat.mul_comm]
    exact h
  rw [bitAt, List.getD_eq_getElem?_getD, List.getElem?_eq_none hlen, Option.getD_none,
    BitVec.getMsbD_zero]

/-- Whether a text is a burst is decided on its own bits. -/
theorem burst_of_bits {ws : List (BitVec w)} (hw : 0 < w) (start : ℕ)
    (h : ∀ k < w * ws.length, bitAt ws k = true → start ≤ k ∧ k < start + w) : Burst ws := by
  refine ⟨start, fun k hk => ?_⟩
  by_cases hlt : k < w * ws.length
  · exact h k hlt hk
  · rw [bitAt_of_length_le hw (Nat.not_lt.mp hlt)] at hk
    cases hk

theorem bitAt_cons_add (x : BitVec w) (ws : List (BitVec w)) (hw : 0 < w) (k : ℕ) :
    bitAt (x :: ws) (k + w) = bitAt ws k := by
  rw [bitAt, bitAt, Nat.add_div_right k hw, Nat.add_mod_right, List.getD_cons_succ]

/-- Where a set bit of word `n` lies. -/
theorem place_of_set {ws : List (BitVec w)} {start : ℕ}
    (hstart : ∀ k, bitAt ws k = true → start ≤ k ∧ k < start + w) (n : ℕ) {i : ℕ}
    (hset : (ws.getD n 0#w).getMsbD i = true) : start ≤ n * w + i ∧ n * w + i < start + w := by
  have hi : i < w := by
    by_contra hge
    rw [BitVec.getMsbD_of_ge _ i (Nat.not_lt.mp hge)] at hset
    cases hset
  exact hstart _ ((bitAt_word ws n hi).trans hset)

theorem eq_zero_of_getMsbD {x : BitVec w} (h : ∀ i < w, x.getMsbD i = false) : x = 0#w :=
  BitVec.eq_of_getMsbD_eq fun i hi => (h i hi).trans BitVec.getMsbD_zero.symm

theorem Burst.tail {x : BitVec w} {ws : List (BitVec w)} (hw : 0 < w) (h : Burst (x :: ws)) :
    Burst ws := by
  obtain ⟨start, hstart⟩ := h
  refine ⟨start - w, fun k hk => ?_⟩
  have hplace := hstart (k + w) (by rwa [bitAt_cons_add x ws hw])
  omega

/-- A burst that begins in the first word ends in the second: the first word has
its bits from some place on, the second before that place. -/
theorem Burst.of_head {a : BitVec w} {ws : List (BitVec w)} (h : Burst (a :: ws)) (ha : a ≠ 0#w) :
    ∃ start, start < w ∧ (∀ i < start, a.getMsbD i = false) ∧
      (∀ i, start ≤ i → (ws.getD 0 0#w).getMsbD i = false) ∧
      ∀ n, ws.getD (n + 1) 0#w = 0#w := by
  obtain ⟨start, hstart⟩ := h
  have hfirst : ∀ i < start, a.getMsbD i = false := by
    intro i hi
    by_contra hset
    have hplace := place_of_set hstart 0 (i := i) (by simpa using hset)
    omega
  have hhead : start < w := by
    by_contra hge
    exact ha (eq_zero_of_getMsbD fun i hi => hfirst i (by omega))
  refine ⟨start, hhead, hfirst, fun i hi => ?_, fun n => eq_zero_of_getMsbD fun i hi => ?_⟩
  · by_contra hset
    have hplace := place_of_set hstart 1 (i := i) (by simpa using hset)
    omega
  · by_contra hset
    have hplace := place_of_set hstart (n + 2) (i := i) (by simpa using hset)
    have hfar : 2 * w ≤ (n + 2) * w := Nat.mul_le_mul_right w (by omega)
    omega

/-- A burst that begins in the first word does not leave the register at zero. -/
theorem digest_cons_ne_zero {poly : BitVec w} (hpoly : poly.getLsbD 0 = true) {a : BitVec w}
    {ws : List (BitVec w)} (hburst : Burst (a :: ws)) (ha : a ≠ 0#w) :
    digest poly 0#w (a :: ws) ≠ 0#w := by
  obtain ⟨start, hstart, hfirst, hsecond, hothers⟩ := hburst.of_head ha
  intro hdigest
  have hrest : digest poly (clocks poly w a) ws = 0#w := by
    rw [digest, List.foldl_cons, absorb, BitVec.zero_xor] at hdigest
    exact hdigest
  cases ws with
  | nil => exact ha (clocks_eq_zero hpoly hrest)
  | cons b ws =>
      have hzeros : ∀ x ∈ ws, x = 0#w := by
        intro x hx
        obtain ⟨n, hn, rfl⟩ := List.mem_iff_getElem.mp hx
        simpa [List.getD_eq_getElem?_getD, hn] using hothers n
      have habsorbed := digest_eq_zero_of_zeros hpoly hzeros hrest
      exact ha (eq_zero_of_straddle hpoly (Nat.le_of_lt hstart) hfirst hsecond
        ((absorb_eq_zero hpoly).mp habsorbed))

/-- No burst as long as the register leaves it at zero. -/
theorem digest_burst_ne_zero {poly : BitVec w} (hpoly : poly.getLsbD 0 = true)
    {ws : List (BitVec w)} (hburst : Burst ws) {x : BitVec w} (hx : x ∈ ws) (hne : x ≠ 0#w) :
    digest poly 0#w ws ≠ 0#w := by
  have hw : 0 < w := by
    rcases Nat.eq_zero_or_pos w with rfl | hw
    · exact absurd (BitVec.of_length_zero (x := x)) hne
    · exact hw
  induction ws with
  | nil => cases hx
  | cons a ws ih =>
      by_cases ha : a = 0#w
      · -- leading zeros leave the register at zero
        subst ha
        have hzero : absorb poly 0#w 0#w = 0#w := by
          rw [absorb, BitVec.xor_zero, clocks_zero]
        rw [digest, List.foldl_cons, hzero]
        rcases List.mem_cons.mp hx with rfl | hmem
        · exact absurd rfl hne
        · exact ih (hburst.tail hw) hmem
      · exact digest_cons_ne_zero hpoly hburst ha

/-- Different texts differ in a word. -/
theorem exists_xor_ne_zero {xs ys : List (BitVec w)} (hlen : xs.length = ys.length)
    (hne : xs ≠ ys) : ∃ x ∈ List.zipWith (· ^^^ ·) xs ys, x ≠ 0#w := by
  induction xs generalizing ys with
  | nil => exact absurd (List.eq_nil_of_length_eq_zero hlen.symm).symm hne
  | cons x xs ih =>
      cases ys with
      | nil => cases hlen
      | cons y ys =>
          by_cases hxy : x = y
          · subst hxy
            obtain ⟨z, hz, hzne⟩ := ih (Nat.succ.inj hlen) fun heq => hne (by rw [heq])
            exact ⟨z, List.mem_cons_of_mem _ hz, hzne⟩
          · exact ⟨x ^^^ y, List.mem_cons_self, fun hzero => hxy (BitVec.xor_eq_zero_iff.mp hzero)⟩

/-- Texts that differ in a burst have different checksums. -/
theorem digest_ne_of_burst {poly : BitVec w} (hpoly : poly.getLsbD 0 = true) (init : BitVec w)
    {xs ys : List (BitVec w)} (hlen : xs.length = ys.length) (hne : xs ≠ ys)
    (hburst : Burst (List.zipWith (· ^^^ ·) xs ys)) :
    digest poly init xs ≠ digest poly init ys := by
  obtain ⟨x, hx, hxne⟩ := exists_xor_ne_zero hlen hne
  intro heq
  have hsum := digest_xor poly init init hlen
  rw [BitVec.xor_self, heq, BitVec.xor_self] at hsum
  exact digest_burst_ne_zero hpoly hburst hx hxne hsum

end CrcRegister
