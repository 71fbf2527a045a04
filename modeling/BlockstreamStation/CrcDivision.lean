import BlockstreamStation.FrameErrorDetection
import BlockstreamStation.RegisterDivision

/-!
# The frame checksum is a remainder

The shift register behind `calculateCRC` divides, over the field of two elements,
by `X ^ 16 + X ^ 15 + X ^ 2 + 1` (`generator_polynomial`).  The checksum of a byte
string is therefore the remainder of its bits, read as coefficients, after a
multiplication by `X ^ 16`; and since the remainder is linear, so is the checksum.
-/

namespace FrameTester

open ShiftRegister Polynomial

/-- The bytes as a polynomial, the most significant bit of the first byte highest. -/
noncomputable def bytesPoly (bytes : List Byte) : (ZMod 2)[X] :=
  messagePoly (transmittedBits bytes)

/-- The constant of the source with the leading term it leaves out. -/
theorem generator_polynomial :
    generator polynomial = (X ^ 16 + X ^ 15 + X ^ 2 + 1 : (ZMod 2)[X]) := by
  have hconstant : registerPoly polynomial = (X ^ 15 + X ^ 2 + 1 : (ZMod 2)[X]) := by
    simp [registerPoly, Finset.sum_range_succ, polynomial, coefficient]
    ring
  rw [generator, hconstant]
  ring

/-- The CRC as the remainder of a division. -/
theorem registerPoly_calculateCRC (bytes : List Byte) :
    registerPoly (calculateCRC bytes) =
      (bytesPoly bytes * X ^ 16) %ₘ (X ^ 16 + X ^ 15 + X ^ 2 + 1 : (ZMod 2)[X]) := by
  rw [calculateCRC_eq_feedAll, registerPoly_feedAll (by decide), registerPoly_zero, zero_mul,
    zero_add, generator_polynomial, bytesPoly]

/-- The CRC is linear in its bytes. -/
theorem calculateCRC_xor {a b : List Byte} (hlen : a.length = b.length) :
    calculateCRC (List.zipWith (· ^^^ ·) a b) = calculateCRC a ^^^ calculateCRC b := by
  have hbits : (transmittedBits a).length = (transmittedBits b).length := by
    rw [length_transmittedBits, length_transmittedBits, hlen]
  have hsum := feedAll_zipWith_xor polynomial _ _ 0#16 0#16 hbits
  rw [BitVec.xor_self, ← transmittedBits_corrupt a b hlen.symm] at hsum
  rw [calculateCRC_eq_feedAll, calculateCRC_eq_feedAll, calculateCRC_eq_feedAll, ← hsum]
  rfl

/-- **The checksum is a remainder.**  The bits of `calculateCRC` are the
coefficients of the remainder, and the checksum of a sum is the sum of the
checksums. -/
theorem crc_is_remainder :
    (∀ (bytes : List Byte) (i : Nat),
      ((bytesPoly bytes * X ^ 16) %ₘ (X ^ 16 + X ^ 15 + X ^ 2 + 1 : (ZMod 2)[X])).coeff i =
        if (calculateCRC bytes).getLsbD i then 1 else 0) ∧
    ∀ a b : List Byte, a.length = b.length →
      calculateCRC (List.zipWith (· ^^^ ·) a b) = calculateCRC a ^^^ calculateCRC b := by
  refine ⟨fun bytes i => ?_, fun a b => calculateCRC_xor⟩
  rw [← registerPoly_calculateCRC, coeff_registerPoly]
  rfl

/-- Two bytes and their sum. -/
theorem crc_is_remainder_bytes :
    calculateCRC [0xA5#8 ^^^ 0x0F#8] = calculateCRC [0xA5#8] ^^^ calculateCRC [0x0F#8] :=
  crc_is_remainder.2 [0xA5#8] [0x0F#8] rfl

end FrameTester
