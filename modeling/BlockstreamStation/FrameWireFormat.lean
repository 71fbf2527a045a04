import BlockstreamStation.FrameCodec

/-!
# What the frame bytes determine

Two questions about `encodeFrame`.  Do the bytes determine the frame?  They do,
up to the eighth bit of `general`: the header and the footer have fixed widths,
so the total length fixes the number of data words (`encodeFrame_injective`).

Does `decodeFrame` find the frame again?  It reads the read/write flag and
`general` from the second byte, where the encoder put the length code, and it
always asks for thirteen words.  Every field behind the first is therefore taken
one byte too late, and the frame comes back exactly when that shift cannot be
seen: thirteen words, and one and the same byte everywhere from the length code
to the packed byte (`decode_encode_iff_uniform`).
-/

namespace FrameTester

/-! ## The packed bytes -/

theorem generalByte_lowBit (general : Byte) (readWriteCommand : Bool) :
    (decide (generalByte general readWriteCommand &&& 0x01#8 ≠ 0)) = readWriteCommand := by
  revert general readWriteCommand
  decide

theorem generalByte_shiftRight (general : Byte) (readWriteCommand : Bool) :
    generalByte general readWriteCommand >>> 1 = general &&& 0x7F#8 := by
  revert general readWriteCommand
  decide

theorem toNat_and_lowSeven (general : Byte) :
    (general &&& 0x7F#8).toNat = general.toNat % 128 := by
  revert general
  decide

/-- The packed byte determines the flag and the lower seven bits of `general`,
and nothing else. -/
theorem generalByte_eq_iff (g h : Byte) (r s : Bool) :
    generalByte g r = generalByte h s ↔ r = s ∧ g.toNat % 128 = h.toNat % 128 := by
  constructor
  · intro heq
    refine ⟨?_, ?_⟩
    · rw [← generalByte_lowBit g r, heq, generalByte_lowBit]
    · rw [← toNat_and_lowSeven, ← generalByte_shiftRight g r, heq, generalByte_shiftRight,
        toNat_and_lowSeven]
  · intro hparts
    obtain ⟨rfl, hmod⟩ := hparts
    have hseven : g &&& 0x7F#8 = h &&& 0x7F#8 := by
      apply BitVec.eq_of_toNat_eq
      rw [toNat_and_lowSeven, toNat_and_lowSeven, hmod]
    have hfrom : ∀ (x : Byte) (b : Bool), generalByte x b = generalByte (x &&& 0x7F#8) b := by
      decide
    rw [hfrom g, hfrom h, hseven]

theorem completionByte_flags (completion conditional : Bool) :
    decide (completionByte completion conditional &&& 0x01#8 ≠ 0) = completion ∧
      decide ((completionByte completion conditional &&& 0x02#8) >>> 1 ≠ 0) = conditional := by
  revert completion conditional
  decide

/-- The completion byte determines both flags. -/
theorem completionByte_inj {a b c d : Bool} :
    completionByte a b = completionByte c d ↔ a = c ∧ b = d := by
  revert a b c d
  decide

/-! ## Injectivity -/

/-- **The wire format is unambiguous.**  Two frames have the same bytes exactly
when they agree on every field, `general` counting modulo `128`. -/
theorem encodeFrame_injective (f g : Frame) :
    encodeFrame f = encodeFrame g ↔
      f.registerAddress = g.registerAddress ∧ f.readWriteCommand = g.readWriteCommand ∧
      f.lengthCode = g.lengthCode ∧ f.chipAddress = g.chipAddress ∧
      f.engineAddress = g.engineAddress ∧ f.data = g.data ∧ f.cnt = g.cnt ∧
      f.completion = g.completion ∧
      f.completionWithConditional = g.completionWithConditional ∧
      f.general.toNat % 128 = g.general.toNat % 128 := by
  constructor
  · intro heq
    -- the CRC trailer is cut off first, then the footer, by the common length
    have hwords : f.data.length = g.data.length := by
      have h := congrArg List.length heq
      rw [length_encodeFrame, length_encodeFrame] at h
      omega
    have hbody : frameBody f = frameBody g :=
      (List.append_inj heq (by simp [frameBody, hwords])).1
    have hparts := List.append_inj hbody (by simp [hwords])
    have hdata : dataBytes f.data = dataBytes g.data := by
      have h := hparts.1
      simp only [List.cons_append, List.nil_append, List.cons.injEq] at h
      exact h.2.2.2.2.2
    have hheader := hparts.1
    have hfooter := hparts.2
    simp only [List.cons_append, List.nil_append, List.cons.injEq] at hheader hfooter
    obtain ⟨hregister, hlength, hchip, hhigh, hlow, -⟩ := hheader
    obtain ⟨hgeneral, hcnt, hcompletion, -⟩ := hfooter
    obtain ⟨hrw, hmod⟩ := (generalByte_eq_iff _ _ _ _).mp hgeneral
    obtain ⟨hdone, hcond⟩ := completionByte_inj.mp hcompletion
    exact ⟨hregister, hrw, hlength, hchip, word_eq_of_bytes hhigh hlow,
      dataBytes_injective hdata, hcnt, hdone, hcond, hmod⟩
  · intro hparts
    obtain ⟨hregister, hrw, hlength, hchip, hengine, hdata, hcnt, hdone, hcond, hmod⟩ := hparts
    have hbody : frameBody f = frameBody g := by
      have hgeneral := (generalByte_eq_iff _ _ _ _).mpr ⟨hrw, hmod⟩
      simp only [frameBody, hregister, hlength, hchip, hengine, hdata, hcnt, hdone, hcond,
        hgeneral]
    simp only [encodeFrame, hbody]

/-! ## Decoding what was encoded -/

/-- A list that equals itself moved up by one place, with `x` moved in, holds
nothing but `x`. -/
theorem eq_replicate_of_shifted {α : Type} {x : α} :
    ∀ {list : List α}, list.tail ++ [x] = list → list = List.replicate list.length x := by
  intro list
  induction list with
  | nil => intro h; simp at h
  | cons a rest ih =>
      intro h
      cases rest with
      | nil =>
          have hx : x = a := by simpa using h
          simp [hx]
      | cons b rest =>
          have hparts : b = a ∧ (b :: rest).tail ++ [x] = b :: rest := by
            simpa using h
          have htail := ih hparts.2
          have hb : b = x := by
            have hmem : b ∈ List.replicate (b :: rest).length x := htail ▸ List.mem_cons_self
            exact List.eq_of_mem_replicate hmem
          rw [List.length_cons, List.replicate_succ, ← htail, ← hparts.1, hb]

/-- The bytes `encodeFrame` appends behind the engine address. -/
def bytesAfterEngine (frame : Frame) : List Byte :=
  dataBytes frame.data ++
    [generalByte frame.general frame.readWriteCommand, frame.cnt,
      completionByte frame.completion frame.completionWithConditional,
      highByte (calculateCRC (frameBody frame)), lowByte (calculateCRC (frameBody frame))]

theorem encodeFrame_eq (frame : Frame) :
    encodeFrame frame =
      frame.registerAddress :: frame.lengthCode :: frame.chipAddress ::
        highByte frame.engineAddress :: lowByte frame.engineAddress ::
        bytesAfterEngine frame := by
  simp [encodeFrame, frameBody, bytesAfterEngine]

/-- The frames on which the decoder's shift by one byte cannot be seen: thirteen
data words, and the packed byte repeated through the length code, the chip
address, the engine address and all of the data. -/
def Uniform (frame : Frame) : Prop :=
  let packed := generalByte frame.general frame.readWriteCommand
  frame.data = List.replicate 13 (joinBytes packed packed) ∧
    frame.lengthCode = packed ∧ frame.chipAddress = packed ∧
    frame.engineAddress = joinBytes packed packed

instance (frame : Frame) : Decidable (Uniform frame) := by
  unfold Uniform; infer_instance

/-- What a decoded frame holds in the fields read from the header and the data
bytes, whether or not the footer was reached. -/
theorem decodeFrame_header {frame decoded : Frame} {b0 b1 b2 b3 b4 b5 : Byte}
    {rest : List Byte} (hlen : 4 ≤ rest.length)
    (h : decodeFrame frame (b0 :: b1 :: b2 :: b3 :: b4 :: b5 :: rest) = some decoded) :
    decoded.lengthCode = b2 ∧ decoded.chipAddress = b3 ∧
      decoded.engineAddress = joinBytes b4 b5 ∧ decoded.data = pairWords (rest.take 26) := by
  rw [decodeFrame_eq _ _ _ _ _ _ _ _ hlen] at h
  split at h
  · obtain ⟨cnt, _, h⟩ := Option.bind_eq_some_iff.mp h
    obtain ⟨flags, _, h⟩ := Option.bind_eq_some_iff.mp h
    cases h
    exact ⟨rfl, rfl, rfl, rfl⟩
  · cases h
    exact ⟨rfl, rfl, rfl, rfl⟩

/-- The decoder finds the number of data words only when there are thirteen. -/
theorem thirteen_words_of_decode {frame fresh : Frame} {next : Byte} {rest : List Byte}
    (hbytes : bytesAfterEngine frame = next :: rest)
    (h : decodeFrame fresh (encodeFrame frame) = some frame) :
    frame.data.length = 13 := by
  have hlen : (bytesAfterEngine frame).length = 2 * frame.data.length + 5 := by
    simp [bytesAfterEngine]
  rw [hbytes, List.length_cons] at hlen
  rw [encodeFrame_eq, hbytes] at h
  obtain ⟨_, _, _, hdata⟩ := decodeFrame_header (by omega) h
  have hcount := congrArg List.length hdata
  rw [length_pairWords, List.length_take] at hcount
  omega

/-- Thirteen data words that come back are thirteen copies of the packed
byte. -/
theorem dataBytes_replicate_of_decode {frame fresh : Frame}
    (h : decodeFrame fresh (encodeFrame frame) = some frame)
    (hwords : frame.data.length = 13) :
    dataBytes frame.data =
      List.replicate 26 (generalByte frame.general frame.readWriteCommand) := by
  have hlength : (dataBytes frame.data).length = 26 := by simp [hwords]
  obtain ⟨first, others, hsplit⟩ : ∃ first others, dataBytes frame.data = first :: others := by
    cases hbytes : dataBytes frame.data with
    | nil => simp [hbytes] at hlength
    | cons first others => exact ⟨first, others, rfl⟩
  have hothers : others.length = 25 := by simpa [hsplit] using hlength
  rw [encodeFrame_eq, bytesAfterEngine, hsplit, List.cons_append] at h
  obtain ⟨_, _, _, hdata⟩ := decodeFrame_header (by simp) h
  have htake : (others ++ [generalByte frame.general frame.readWriteCommand, frame.cnt,
      completionByte frame.completion frame.completionWithConditional,
      highByte (calculateCRC (frameBody frame)),
      lowByte (calculateCRC (frameBody frame))]).take 26 =
        others ++ [generalByte frame.general frame.readWriteCommand] := by
    rw [List.take_append, hothers]
    simp [List.take_of_length_le, hothers]
  have hbytes := congrArg dataBytes hdata
  rw [dataBytes_pairWords, htake, hsplit] at hbytes
  have hwhole : (others ++ [generalByte frame.general frame.readWriteCommand]).take
      (2 * ((others ++ [generalByte frame.general frame.readWriteCommand]).length / 2)) =
        others ++ [generalByte frame.general frame.readWriteCommand] :=
    List.take_of_length_le (by simp [hothers])
  have hshifted : (first :: others).tail ++
      [generalByte frame.general frame.readWriteCommand] = first :: others :=
    (hbytes.trans hwhole).symm
  have hall := eq_replicate_of_shifted hshifted
  rw [hsplit, hall]
  simp [hothers]

/-- A frame that comes back is uniform. -/
theorem uniform_of_decode {frame fresh : Frame}
    (h : decodeFrame fresh (encodeFrame frame) = some frame) : Uniform frame := by
  obtain ⟨next, rest, hnext⟩ : ∃ next rest, bytesAfterEngine frame = next :: rest := by
    cases hbytes : bytesAfterEngine frame with
    | nil => simp [bytesAfterEngine] at hbytes
    | cons next rest => exact ⟨next, rest, rfl⟩
  have hwords := thirteen_words_of_decode hnext h
  have hbytes := dataBytes_replicate_of_decode h hwords
  have hdata : frame.data = List.replicate 13
      (joinBytes (generalByte frame.general frame.readWriteCommand)
        (generalByte frame.general frame.readWriteCommand)) := by
    rw [← pairWords_dataBytes frame.data, hbytes]
    simp [List.replicate, pairWords]
  have hfirst : next = generalByte frame.general frame.readWriteCommand := by
    rw [bytesAfterEngine, hbytes] at hnext
    exact (List.cons.inj hnext).1.symm
  have hlen : 4 ≤ rest.length := by
    have hcount := congrArg List.length hnext
    simp only [bytesAfterEngine, List.length_append, length_dataBytes, List.length_cons,
      List.length_nil] at hcount
    omega
  rw [encodeFrame_eq, hnext] at h
  obtain ⟨hlength, hchip, hengine, _⟩ := decodeFrame_header hlen h
  have hlow : lowByte frame.engineAddress = next := by
    rw [hengine, lowByte_joinBytes]
  have hhigh : highByte frame.engineAddress = next := by
    rw [hengine, highByte_joinBytes, hlow]
  have hchipNext : frame.chipAddress = next := hchip.trans hhigh
  refine ⟨hdata, ?_, ?_, ?_⟩
  · rw [hlength, hchipNext, hfirst]
  · rw [hchipNext, hfirst]
  · rw [hengine, hlow, hfirst]

/-- A uniform frame comes back. -/
theorem decode_of_uniform {frame fresh : Frame} (hgeneral : frame.general < 0x80#8)
    (h : Uniform frame) : decodeFrame fresh (encodeFrame frame) = some frame := by
  obtain ⟨hdata, hlength, hchip, hengine⟩ := h
  have hseven : generalByte frame.general frame.readWriteCommand >>> 1 = frame.general := by
    have hmask : ∀ g : Byte, g < 0x80#8 → g &&& 0x7F#8 = g := by decide
    rw [generalByte_shiftRight, hmask _ hgeneral]
  have hbytes : bytesAfterEngine frame =
      generalByte frame.general frame.readWriteCommand ::
        (List.replicate 25 (generalByte frame.general frame.readWriteCommand) ++
          [generalByte frame.general frame.readWriteCommand, frame.cnt,
            completionByte frame.completion frame.completionWithConditional,
            highByte (calculateCRC (frameBody frame)),
            lowByte (calculateCRC (frameBody frame))]) := by
    rw [bytesAfterEngine, hdata]
    simp [List.replicate]
  obtain ⟨hdone, hcond⟩ := completionByte_flags frame.completion frame.completionWithConditional
  have hrw := generalByte_lowBit frame.general frame.readWriteCommand
  rw [encodeFrame_eq, hbytes, decodeFrame_eq _ _ _ _ _ _ _ _ (by simp)]
  obtain ⟨registerAddress, readWriteCommand, lengthCode, chipAddress, engineAddress, data,
    general, cnt, completion, completionWithConditional⟩ := frame
  simp only at hdata hlength hchip hengine hseven hdone hcond hrw ⊢
  subst hdata hlength hchip hengine
  simp [decodedHeader, List.replicate, pairWords, hseven]
  exact ⟨by simpa using hrw, by simpa using hdone, by simpa using hcond⟩

/-- **Round trip, exactly.**  With `general` in its seven bits, decoding the bytes
of a frame into a fresh frame gives all ten fields back if and only if the frame
is uniform. -/
theorem decode_encode_iff_uniform (frame : Frame) (hgeneral : frame.general < 0x80#8) :
    decodeFrame freshFrame (encodeFrame frame) = some frame ↔ Uniform frame :=
  ⟨uniform_of_decode, decode_of_uniform hgeneral⟩

/-- The frame of the tester's `main`. -/
def testerFrame : Frame where
  registerAddress := 0x01
  readWriteCommand := true
  lengthCode := 13
  chipAddress := 0x12
  engineAddress := 0x3FF
  data := [0xAAAA, 0x5555]
  general := 0x0F
  cnt := 0x03
  completion := true
  completionWithConditional := false

/-- The tester's frame with its packed byte `0x1F` repeated through thirteen
words. -/
def uniformFrame : Frame :=
  { testerFrame with
    lengthCode := 0x1F
    chipAddress := 0x1F
    engineAddress := 0x1F1F
    data := List.replicate 13 0x1F1F }

/-- The round trip is reached at a uniform frame and at the tester's own frame,
one on each side of the equivalence. -/
theorem decode_encode_uniform_and_tester :
    ((decodeFrame freshFrame (encodeFrame uniformFrame) = some uniformFrame ↔
        Uniform uniformFrame) ∧ Uniform uniformFrame) ∧
      (decodeFrame freshFrame (encodeFrame testerFrame) = some testerFrame ↔
        Uniform testerFrame) ∧ ¬Uniform testerFrame := by
  refine ⟨⟨decode_encode_iff_uniform _ (by decide), by decide⟩,
    decode_encode_iff_uniform _ (by decide), by decide⟩

/-- The tester's frame does not survive its own round trip. -/
theorem testerFrame_not_round_trip :
    testerFrame.general < 0x80#8 ∧
      decodeFrame freshFrame (encodeFrame testerFrame) ≠ some testerFrame := by
  refine ⟨by decide, ?_⟩
  intro h
  have hlength := congrArg (fun decoded => decoded.map Frame.lengthCode) h
  revert hlength
  decide

end FrameTester
