import Mathlib.Data.Nat.Notation
import Mathlib.Tactic.Common

/-!
# Big-endian words

The two bytes of a 16-bit value, most significant byte first.

Main results:

- Theorems `wordOf_hiByte_loByte`, `hiByte_wordOf` and `loByte_wordOf`: a word
  and its two bytes determine each other.
-/

namespace BigEndian

/-- One byte of a frame. -/
abbrev Byte := BitVec 8

/-- The big-endian word of two bytes. -/
def wordOf (hi lo : Byte) : BitVec 16 :=
  BitVec.ofNat 16 (hi.toNat * 256 + lo.toNat)

/-- The byte sent first. -/
def hiByte (v : BitVec 16) : Byte :=
  BitVec.ofNat 8 (v.toNat / 256)

/-- The byte sent second. -/
def loByte (v : BitVec 16) : Byte :=
  BitVec.ofNat 8 v.toNat

@[simp] theorem hiByte_wordOf (hi lo : Byte) : hiByte (wordOf hi lo) = hi := by
  apply BitVec.eq_of_toNat_eq
  simp only [hiByte, wordOf, BitVec.toNat_ofNat]
  omega

@[simp] theorem loByte_wordOf (hi lo : Byte) : loByte (wordOf hi lo) = lo := by
  apply BitVec.eq_of_toNat_eq
  simp only [loByte, wordOf, BitVec.toNat_ofNat]
  omega

@[simp] theorem wordOf_hiByte_loByte (v : BitVec 16) : wordOf (hiByte v) (loByte v) = v := by
  apply BitVec.eq_of_toNat_eq
  simp only [hiByte, loByte, wordOf, BitVec.toNat_ofNat]
  omega

end BigEndian
