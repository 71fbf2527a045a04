import BlockstreamStation.FrameCodec
import BlockstreamStation.ShiftRegister

/-!
# Errors the frame checksum detects

`calculateCRC` is the byte-wise form of a sixteen-bit feedback shift register
fed with the bits of its input, most significant bit of each byte first
(`calculateCRC_eq_feedAll`).  Appending the checksum, high byte first, brings
the register back to zero (`calculateCRC_encodeFrame`), so a receiver sees the
register of the error pattern alone (`calculateCRC_corrupted`).

The detection results are then those of the shift register at the polynomial
`0x8005`: its constant term is one, it has an odd number of terms, and its top
bit first comes back after `32767` shifts.
-/

namespace FrameTester

open ShiftRegister

/-- The bits of a byte in transmission order. -/
def byteBits (byte : Byte) : List Bool := (List.range 8).map byte.getMsbD

/-- The bits of a byte string in transmission order. -/
def transmittedBits (bytes : List Byte) : List Bool := bytes.flatMap byteBits

/-- Eight bits for a byte. -/
@[simp] theorem length_byteBits (byte : Byte) : (byteBits byte).length = 8 := by
  simp [byteBits]

/-- The bits of a byte come first. -/
theorem transmittedBits_cons (byte : Byte) (rest : List Byte) :
    transmittedBits (byte :: rest) = byteBits byte ++ transmittedBits rest :=
  List.flatMap_cons

/-- Eight for each byte. -/
theorem length_transmittedBits (bytes : List Byte) :
    (transmittedBits bytes).length = 8 * bytes.length := by
  induction bytes with
  | nil => rfl
  | cons byte rest ih =>
      rw [transmittedBits_cons, List.length_append, length_byteBits, ih, List.length_cons]
      omega

/-! ## The loop is the register -/

/-- A shift of the CRC is one of the register. -/
theorem crcShift_eq_shift (crc : Word) : crcShift crc = shift polynomial crc := by
  have hmask : crc &&& 0x8000#16 = if crc.msb then 0x8000#16 else 0#16 := by
    apply BitVec.eq_of_getLsbD_eq
    intro i hi
    have hbit : (0x8000#16).getLsbD i = decide (i = 15) := by
      have hall : ∀ j : Fin 16, (0x8000#16).getLsbD j = decide (j.val = 15) := by decide
      exact hall ⟨i, hi⟩
    rw [BitVec.getLsbD_and, hbit]
    by_cases htop : i = 15
    · subst htop
      cases hmsb : crc.msb <;> simp_all [BitVec.msb_eq_getLsbD_last]
    · cases crc.msb <;> simp [htop, hbit]
  unfold crcShift shift
  rw [hmask]
  cases crc.msb <;> simp

/-- A byte packed into the top of the register is the byte shifted up. -/
theorem pack_byteBits (byte : Byte) :
    (pack (byteBits byte) : Word) = byte.setWidth 16 <<< 8 := by
  revert byte
  decide

/-- A byte of the CRC feeds its eight bits. -/
theorem crcByte_eq_feedAll (crc : Word) (byte : Byte) :
    crcByte crc byte = feedAll polynomial crc (byteBits byte) := by
  have hshift : crcShift = shift polynomial := funext crcShift_eq_shift
  rw [crcByte, hshift, feedAll_eq_shift_pack _ _ _ (by simp), pack_byteBits, length_byteBits]

/-- So the CRC of a byte string feeds all its bits. -/
theorem foldl_crcByte (crc : Word) (bytes : List Byte) :
    bytes.foldl crcByte crc = feedAll polynomial crc (transmittedBits bytes) := by
  induction bytes generalizing crc with
  | nil => rfl
  | cons byte rest ih =>
      rw [List.foldl_cons, ih, transmittedBits_cons, feedAll_append, crcByte_eq_feedAll]

/-- **The checksum is the register.**  `calculateCRC` feeds the bits of its input
into a register that starts at zero. -/
theorem calculateCRC_eq_feedAll (bytes : List Byte) :
    calculateCRC bytes = feedAll polynomial 0#16 (transmittedBits bytes) :=
  foldl_crcByte 0#16 bytes

/-- Feeding the register its own two bytes, high byte first, clears it. -/
theorem feed_own_bytes (crc : Word) :
    crcByte (crcByte crc (highByte crc)) (lowByte crc) = 0#16 := by
  have hlow : ∀ byte : Byte, (pack (byteBits byte) : Word) >>> 8 = byte.setWidth 16 := by
    decide
  have hpacked : (pack (byteBits (highByte crc) ++ byteBits (lowByte crc)) : Word) = crc := by
    rw [pack_append, pack_byteBits, length_byteBits, hlow]
    have hsum : ((highByte crc).setWidth 16 <<< 8) ^^^ (lowByte crc).setWidth 16 =
        joinBytes (highByte crc) (lowByte crc) := by
      apply BitVec.eq_of_getLsbD_eq
      intro i hi
      simp only [joinBytes, BitVec.getLsbD_xor, BitVec.getLsbD_or, BitVec.getLsbD_shiftLeft,
        BitVec.getLsbD_setWidth]
      by_cases hlow8 : i < 8
      · simp [hlow8]
      · simp [hlow8, BitVec.getLsbD_of_ge (lowByte crc) i (by omega)]
    rw [hsum, joinBytes_highByte_lowByte]
  rw [crcByte_eq_feedAll, crcByte_eq_feedAll, ← feedAll_append,
    feedAll_eq_shift_pack _ _ _ (by simp), hpacked, BitVec.xor_self, iterate_shift_zero]

/-- Every encoded frame has residue zero. -/
theorem calculateCRC_encodeFrame (frame : Frame) :
    calculateCRC (encodeFrame frame) = 0#16 := by
  rw [encodeFrame, calculateCRC, List.foldl_append]
  exact feed_own_bytes (calculateCRC (frameBody frame))

/-! ## Error patterns -/

/-- The bytes received when the bits set in `errors` are flipped on the way. -/
def corrupt (bytes errors : List Byte) : List Byte :=
  List.zipWith (· ^^^ ·) bytes errors

/-- The bits of a corrupted byte. -/
theorem byteBits_xor (a b : Byte) :
    byteBits (a ^^^ b) = List.zipWith Bool.xor (byteBits a) (byteBits b) := by
  simp [byteBits, List.range, List.range.loop]

/-- The bits of a corrupted byte string. -/
theorem transmittedBits_corrupt (bytes errors : List Byte)
    (hlen : errors.length = bytes.length) :
    transmittedBits (corrupt bytes errors) =
      List.zipWith Bool.xor (transmittedBits bytes) (transmittedBits errors) := by
  induction bytes generalizing errors with
  | nil => simp [corrupt, transmittedBits]
  | cons byte rest ih =>
      cases errors with
      | nil => simp at hlen
      | cons error others =>
          have htail := ih others (by simpa using hlen)
          rw [corrupt, List.zipWith_cons_cons, transmittedBits_cons, transmittedBits_cons,
            transmittedBits_cons, byteBits_xor, List.zipWith_append (by simp), ← htail]
          rfl

/-- The register of a corrupted frame is the register of the error pattern. -/
theorem calculateCRC_corrupted (frame : Frame) (errors : List Byte)
    (hlen : errors.length = (encodeFrame frame).length) :
    calculateCRC (corrupt (encodeFrame frame) errors) =
      feedAll polynomial 0#16 (transmittedBits errors) := by
  have hbits : (transmittedBits (encodeFrame frame)).length =
      (transmittedBits errors).length := by
    rw [length_transmittedBits, length_transmittedBits, hlen]
  have hsum := feedAll_zipWith_xor polynomial _ _ 0#16 0#16 hbits
  rw [BitVec.xor_self] at hsum
  rw [calculateCRC_eq_feedAll, transmittedBits_corrupt _ _ hlen, hsum,
    ← calculateCRC_eq_feedAll, calculateCRC_encodeFrame, BitVec.zero_xor]

/-- The constant term of the polynomial is one. -/
theorem polynomial_constant_term : polynomial.getLsbD 0 = true := by decide

/-- Below its leading term the polynomial has an odd number of terms. -/
theorem parity_polynomial : parity polynomial = true := by decide

/-- The order of `x` modulo the generator is `32767`. -/
theorem polynomial_noReturn : NoReturnBefore polynomial 32767 := by
  apply noReturnBefore_of_walk (by decide)
  decide +kernel

/-- The set bits of an error pattern lie in sixteen consecutive places of the
transmitted order. -/
def IsBurst (errors : List Byte) : Prop :=
  ∃ first, ∀ i, (transmittedBits errors)[i]? = some true → first ≤ i ∧ i < first + 16

/-- **Burst detection.**  Every encoded frame has residue zero, and no burst of
at most sixteen bits leaves it at zero, wherever it lies and however it looks. -/
theorem crc_detects_bursts (frame : Frame) :
    calculateCRC (encodeFrame frame) = 0#16 ∧
      ∀ errors : List Byte, errors.length = (encodeFrame frame).length →
        true ∈ transmittedBits errors → IsBurst errors →
        calculateCRC (corrupt (encodeFrame frame) errors) ≠ 0#16 := by
  refine ⟨calculateCRC_encodeFrame frame, ?_⟩
  intro errors hlen hset hburst
  obtain ⟨first, hwindow⟩ := hburst
  rw [calculateCRC_corrupted frame errors hlen]
  exact burst_ne_zero polynomial_constant_term hset hwindow

/-- A burst across the boundary of the first two bytes of a fresh frame. -/
theorem crc_detects_bursts_fresh :
    let errors : List Byte := 0x01#8 :: 0xC0#8 :: List.replicate 8 0#8
    errors.length = (encodeFrame freshFrame).length ∧ true ∈ transmittedBits errors ∧
      IsBurst errors ∧ calculateCRC (corrupt (encodeFrame freshFrame) errors) ≠ 0#16 := by
  intro errors
  have hlen : errors.length = (encodeFrame freshFrame).length := by decide
  have hset : true ∈ transmittedBits errors := by decide
  have hburst : IsBurst errors := by
    refine ⟨7, ?_⟩
    have hall : ∀ i : Fin 80, (transmittedBits errors)[i.val]? = some true →
        7 ≤ i.val ∧ i.val < 7 + 16 := by decide
    intro i hi
    have hlt : i < 80 := by
      obtain ⟨hlt, _⟩ := List.getElem?_eq_some_iff.mp hi
      simpa [length_transmittedBits, errors] using hlt
    exact hall ⟨i, hlt⟩ hi
  exact ⟨hlen, hset, hburst, (crc_detects_bursts freshFrame).2 errors hlen hset hburst⟩

/-- **Minimum distance.**  Up to `2042` data words a frame is shorter than the
order of `x`, so one, two or three flipped bits are always seen; an odd number
of flipped bits is seen in a frame of any length. -/
theorem crc_detects_few_and_odd (frame : Frame) :
    (frame.data.length ≤ 2042 →
      ∀ errors : List Byte, errors.length = (encodeFrame frame).length →
        (transmittedBits errors).count true ∈ [1, 2, 3] →
        calculateCRC (corrupt (encodeFrame frame) errors) ≠ 0#16) ∧
    (∀ errors : List Byte, errors.length = (encodeFrame frame).length →
      (transmittedBits errors).count true % 2 = 1 →
      calculateCRC (corrupt (encodeFrame frame) errors) ≠ 0#16) := by
  have hodd : ∀ errors : List Byte, errors.length = (encodeFrame frame).length →
      (transmittedBits errors).count true % 2 = 1 →
      calculateCRC (corrupt (encodeFrame frame) errors) ≠ 0#16 := by
    intro errors hlen hcount
    rw [calculateCRC_corrupted frame errors hlen]
    exact feedAll_ne_zero_of_odd (by decide) parity_polynomial hcount
  refine ⟨?_, hodd⟩
  intro hwords errors hlen hcount
  have hcases : (transmittedBits errors).count true = 1 ∨
      (transmittedBits errors).count true = 2 ∨
      (transmittedBits errors).count true = 3 := by simpa using hcount
  rcases hcases with hone | htwo | hthree
  · exact hodd errors hlen (by omega)
  · rw [calculateCRC_corrupted frame errors hlen]
    refine feedAll_ne_zero_of_count_two polynomial_constant_term polynomial_noReturn ?_ htwo
    rw [length_transmittedBits, hlen, length_encodeFrame]
    omega
  · exact hodd errors hlen (by omega)

/-- Two flipped bits at the ends of a fresh frame, and one flipped bit. -/
theorem crc_detects_few_and_odd_fresh :
    let pair : List Byte := 0x80#8 :: List.replicate 8 0#8 ++ [0x01#8]
    let single : List Byte := List.replicate 9 0#8 ++ [0x01#8]
    (freshFrame.data.length ≤ 2042 ∧ pair.length = (encodeFrame freshFrame).length ∧
      (transmittedBits pair).count true ∈ [1, 2, 3] ∧
      calculateCRC (corrupt (encodeFrame freshFrame) pair) ≠ 0#16) ∧
    (single.length = (encodeFrame freshFrame).length ∧
      (transmittedBits single).count true % 2 = 1 ∧
      calculateCRC (corrupt (encodeFrame freshFrame) single) ≠ 0#16) := by
  intro pair single
  have hpair : pair.length = (encodeFrame freshFrame).length := by decide
  have htwo : (transmittedBits pair).count true ∈ [1, 2, 3] := by decide
  have hsingle : single.length = (encodeFrame freshFrame).length := by decide
  have hone : (transmittedBits single).count true % 2 = 1 := by decide
  exact ⟨⟨by decide, hpair, htwo,
      (crc_detects_few_and_odd freshFrame).1 (by decide) pair hpair htwo⟩,
    hsingle, hone, (crc_detects_few_and_odd freshFrame).2 single hsingle hone⟩

end FrameTester
