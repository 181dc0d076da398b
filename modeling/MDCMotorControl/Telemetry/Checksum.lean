import MDCMotorControl.Library.CrcPolynomial
import MDCMotorControl.Telemetry.Packets

/-!
# The CRC-8 of the telemetry

`crc8_atm` divides by `x ^ 8 + x ^ 2 + x + 1`.  The divisor has a constant term and the
degree of a byte, so an error within eight consecutive bits is never a multiple of it.

Main results:

- Theorem `burst_detected`: no burst of eight bits leaves the checksum or a packet
  right.
- Theorem `crc8Atm_polynomial`: the checksum is the remainder of the shifted message,
  and a message with its checksum has none.
-/

namespace MDCMotorControl
namespace Telemetry

open BigEndian CrcRegister Polynomial

/-- Two byte sequences of one length that differ, and only within eight consecutive
bits, most significant bit first. -/
structure BurstError (d d' : List Byte) : Prop where
  length_eq : d.length = d'.length
  ne : d ≠ d'
  burst : Burst (List.zipWith (· ^^^ ·) d d')

/-- The register ends at zero on data and their checksum, and on no other byte. -/
theorem crc8Atm_append_eq_zero (data : List Byte) (crc : Byte) :
    crc8Atm (data ++ [crc]) = 0 ↔ crc8Atm data = crc := by
  rw [crc8Atm, digest, List.foldl_append, List.foldl_cons, List.foldl_nil]
  exact absorb_eq_zero (by decide)

theorem BurstError.crc8Atm_ne {d d' : List Byte} (h : BurstError d d') :
    crc8Atm d ≠ crc8Atm d' :=
  digest_ne_of_burst (by decide) _ h.length_eq h.ne h.burst

/-- A burst changes the checksum of data; and a packet that it alters, in the data, in
the checksum or in both, is not accepted. -/
theorem burst_detected :
    (∀ d d' : List Byte, BurstError d d' → crc8Atm d ≠ crc8Atm d') ∧
    ∀ (data data' : List Byte) (crc' : Byte),
      BurstError (data ++ [crc8Atm data]) (data' ++ [crc']) → crc8Atm data' ≠ crc' := by
  refine ⟨fun d d' h => h.crc8Atm_ne, fun data data' crc' h haccepted => ?_⟩
  apply h.crc8Atm_ne
  rw [(crc8Atm_append_eq_zero data _).mpr rfl, (crc8Atm_append_eq_zero data' crc').mpr haccepted]

/-- A request for the position whose last bit of the command and first bits of the
checksum are inverted. -/
theorem burst_detected_straddling : crc8Atm [0x51] ≠ crc8Atm [0x50] ^^^ 0xE0 :=
  burst_detected.2 [0x50] [0x51] _
    ⟨rfl, by decide, burst_of_bits (by decide) 7 (by decide +kernel)⟩

theorem generator_crc8 : generator (0x07 : Byte) = X ^ 8 + X ^ 2 + X + 1 := by
  have hlower : toPoly (0x07 : Byte) = 1 + X + X ^ 2 := by
    simp [toPoly, Finset.sum_range_succ]
  rw [generator, hlower]
  ring

/-- The checksum is the remainder of the message, eight places further up, on division
by `x ^ 8 + x ^ 2 + x + 1`; and the checksum of a message with its checksum is zero. -/
theorem crc8Atm_polynomial (data : List Byte) :
    (∀ i, (messagePoly data * X ^ 8 %ₘ (X ^ 8 + X ^ 2 + X + 1)).coeff i =
      if (crc8Atm data).getLsbD i then 1 else 0) ∧
    crc8Atm (data ++ [crc8Atm data]) = 0 := by
  refine ⟨fun i => ?_, (crc8Atm_append_eq_zero data _).mpr rfl⟩
  have hremainder : messagePoly data * X ^ 8 %ₘ (X ^ 8 + X ^ 2 + X + 1) =
      toPoly (crc8Atm data) := by
    have hzero : toPoly (0x00 : Byte) = 0 := toPoly_zero
    rw [crc8Atm, toPoly_digest, generator_crc8, hzero, zero_mul, zero_add]
  rw [hremainder, coeff_toPoly]

end Telemetry
end MDCMotorControl
