import MDCMotorControl.Library.SignificantBits
import Mathlib

/-!
# Numbers as decimal texts

Texts of decimal fractions in fixed notation, and the shortest of them that stands for a
rounded number: the one with the fewest digits after the point, at least one, that rounds to
the number.

Main results:

- Theorem `readFixed_fixedText`: a text is read back as the fraction it was written for.
- Theorem `shortest_tenth`: the shortest text of a rounded tenth is the tenth itself.
- Theorem `split_intercalate`: texts without a separator come back from their joined text.
-/

namespace DecimalText

open Binary32 SignificantBits

/-! ## Writing and reading -/

/-- The decimal digits of a number, with zeros in front up to a length. -/
def paddedDigits (places n : ℕ) : List Char :=
  List.replicate (places - (Nat.toDigits 10 n).length) '0' ++ Nat.toDigits 10 n

/-- The text of `d / 10 ^ places`, with that many digits after the point. -/
def fixedText (d places : ℕ) : String :=
  String.intercalate "."
    [Nat.repr (d / 10 ^ places), String.ofList (paddedDigits places (d % 10 ^ places))]

/-- The parts of a text between separators. -/
def splitAt (sep : Char) (s : String) : List String :=
  (s.split sep).toList.map (·.copy)

/-- The number that a text in fixed notation stands for.  Underscores between the digits do
not count. -/
def readFixed (s : String) : Option ℚ :=
  match splitAt '.' s with
  | [whole] => whole.toNat?.map (↑)
  | [whole, fraction] => do
      let w ← whole.toNat?
      let f ← fraction.toNat?
      return w + f / 10 ^ (fraction.toList.filter (· != '_')).length
  | _ => none

/-- The fractions with so many digits next to a number, the nearest one first. -/
def neighbours (x : ℚ) (places : ℕ) : List ℕ :=
  let d := nearestEven (x * 10 ^ places)
  [d, if (d : ℚ) ≤ x * 10 ^ places then d + 1 else d - 1]

/-- The fraction with the fewest digits, at least one and at most `limit`, that rounds to a
number, and the nearest one of them. -/
def shortest (bits limit : ℕ) (x : ℚ) : Option (ℕ × ℕ) :=
  (List.range' 1 limit).findSome? fun places =>
    ((neighbours x places).find? fun d : ℕ =>
      roundBits bits (d / 10 ^ places) = x).map (·, places)

example : fixedText 1005 1 = "100.5" := rfl

example : fixedText 1005 3 = "1.005" := rfl

example : shortest 53 21 (roundBits 53 (1 / 3)) = some (3333333333333333, 16) := by
  decide +kernel

/-! ## Texts are read back -/

theorem split_intercalate {sep : Char} {parts : List String} (hne : parts ≠ [])
    (h : ∀ s ∈ parts, sep ∉ s.toList) :
    splitAt sep (String.intercalate (String.singleton sep) parts) = parts := by
  rw [splitAt, String.toList_split_intercalate h, if_neg hne]

/-- The digits of a number hold no other character. -/
theorem not_mem_repr {c : Char} (hc : c.isDigit = false) (n : ℕ) : c ∉ (Nat.repr n).toList := by
  rw [Nat.toList_repr]
  intro hmem
  have hdigit := Nat.isDigit_of_mem_toDigits (by decide) (by decide) hmem
  rw [hc] at hdigit
  exact absurd hdigit (by decide)

theorem isDigit_of_mem_paddedDigits {places n : ℕ} {c : Char} (h : c ∈ paddedDigits places n) :
    c.isDigit = true := by
  rcases List.mem_append.mp h with hzero | hdigit
  · rw [List.eq_of_mem_replicate hzero]
    rfl
  · exact Nat.isDigit_of_mem_toDigits (by decide) (by decide) hdigit

theorem length_paddedDigits {places n : ℕ} (hplaces : 0 < places) (h : n < 10 ^ places) :
    (paddedDigits places n).length = places := by
  have hlength := (Nat.length_toDigits_le_iff (n := n) (by decide : 1 < 10) hplaces).mpr h
  rw [paddedDigits, List.length_append, List.length_replicate]
  omega

/-- Zeros in front do not change the number. -/
theorem toNat?_paddedDigits (places n : ℕ) :
    (String.ofList (paddedDigits places n)).toNat? = some n := by
  have hdigits : ∀ c ∈ paddedDigits places n, c.isDigit = true :=
    fun c => isDigit_of_mem_paddedDigits
  have hne : String.ofList (paddedDigits places n) ≠ "" := by
    intro hempty
    have hlist := congrArg String.toList hempty
    rw [String.toList_ofList, paddedDigits] at hlist
    exact Nat.toDigits_ne_nil (List.append_eq_nil_iff.mp hlist).2
  rw [String.toNat?_eq_some_ofDigitChars
      (String.isNat_of_isDigit hne (by rwa [String.toList_ofList])), String.toList_ofList,
    List.filter_eq_self.mpr fun c hc => ?_, paddedDigits, Nat.ofDigitChars_append,
    Nat.ofDigitChars_replicate_zero, Nat.mul_zero, Nat.ofDigitChars_ten_toDigits]
  rw [bne_iff_ne]
  rintro rfl
  exact absurd (hdigits _ hc) (by decide)

/-- A text is read back as the fraction it was written for. -/
theorem readFixed_fixedText (d : ℕ) {places : ℕ} (h : 0 < places) :
    readFixed (fixedText d places) = some ((d : ℚ) / 10 ^ places) := by
  have hpow : 0 < 10 ^ places := by positivity
  have hfraction : ∀ c ∈ paddedDigits places (d % 10 ^ places), c.isDigit = true :=
    fun c => isDigit_of_mem_paddedDigits
  have hsplit : splitAt '.' (fixedText d places) =
      [Nat.repr (d / 10 ^ places), String.ofList (paddedDigits places (d % 10 ^ places))] := by
    refine split_intercalate (by simp) fun s hs hmem => ?_
    simp only [List.mem_cons, List.not_mem_nil, or_false] at hs
    rcases hs with rfl | rfl
    · exact not_mem_repr (by decide) _ hmem
    · rw [String.toList_ofList] at hmem
      exact absurd (hfraction _ hmem) (by decide)
  have hfilter : (paddedDigits places (d % 10 ^ places)).filter (· != '_') =
      paddedDigits places (d % 10 ^ places) := by
    refine List.filter_eq_self.mpr fun c hc => bne_iff_ne.mpr ?_
    rintro rfl
    exact absurd (hfraction _ hc) (by decide)
  rw [readFixed, hsplit]
  simp only [Nat.toNat?_repr, toNat?_paddedDigits, String.toList_ofList, hfilter,
    length_paddedDigits h (Nat.mod_lt d hpow), Option.bind_eq_bind, Option.bind_some,
    Option.pure_def]
  congr 1
  have hq : ((10 : ℚ) ^ places) ≠ 0 := by positivity
  rw [eq_div_iff hq, add_mul, div_mul_cancel₀ _ hq]
  exact_mod_cast Nat.div_add_mod' d (10 ^ places)

/-! ## Tenths -/

/-- The shortest text of a rounded tenth is the tenth itself. -/
theorem shortest_tenth {bits limit r : ℕ} (hlimit : 0 < limit) (h : 2 * r < 2 ^ bits) :
    shortest bits limit (roundBits bits (r / 10)) = some (r, 1) := by
  obtain ⟨n, rfl⟩ := Nat.exists_eq_succ_of_ne_zero hlimit.ne'
  have hnearest : nearestEven (roundBits bits (r / 10) * 10 ^ 1) = r := by
    rcases Nat.eq_zero_or_pos r with rfl | hpos
    · rw [Nat.cast_zero, zero_div, roundBits_zero, zero_mul]
      exact nearestEven_natCast 0
    have hposq : (0 : ℚ) < r := by exact_mod_cast hpos
    have hq : (2 : ℚ) * r < 2 ^ bits := by exact_mod_cast h
    have hpow : (0 : ℚ) < 2 ^ bits := by positivity
    have herror := abs_roundBits_sub_le (q := r / 10) bits (by positivity)
    have hsmall : (r : ℚ) / 10 / 2 ^ bits < 1 / 20 := by
      rw [div_lt_iff₀ hpow]
      linarith
    rw [abs_le] at herror
    refine nearestEven_eq ?_ ?_ fun htie => ?_
    · have hle : (r : ℚ) / 10 / 2 ^ bits ≤ r / 10 :=
        div_le_self (by positivity) (one_le_pow₀ (by decide))
      have hnonneg : 0 ≤ roundBits bits (r / 10) := by linarith [herror.1]
      positivity
    · rw [abs_le]
      constructor <;> linarith [herror.1, herror.2]
    · exfalso
      have hlt : |roundBits bits (r / 10) * 10 ^ 1 - r| < 1 / 2 := by
        rw [abs_lt]
        constructor <;> linarith [herror.1, herror.2]
      linarith
  have hfind : ((neighbours (roundBits bits (r / 10)) 1).find? fun d : ℕ =>
      roundBits bits (d / 10 ^ 1) = roundBits bits (r / 10)) = some r := by
    rw [neighbours, hnearest]
    exact List.find?_cons_of_pos (by simp)
  rw [shortest, List.range'_succ, List.findSome?_cons, hfind]
  rfl

end DecimalText
