import BlockstreamStation.FrameCodec

/-!
# What `decodeFrame` takes over

One `Frame` object receives vector after vector.  What a vector does to it
depends on the vector's length alone:

    below 10       nothing is read and nothing is set
    10 to 31       header and data are set, the loop leaves before the footer
    32 and 33      the loop completes and the footer is read behind the end
    34 and above   all ten fields are set

The checksum is not looked at.  The main results read the table:
`reads_inside_iff` gives the lengths at which every index is inside the vector,
`HoldsHeader.data_bytes` the data words that arrive,
`all_or_nothing_iff` and `corrupted_kept_iff` the vectors on which the decoder
keeps or replaces the object as a whole, and on which it ignores a wrong
checksum.  A field that already holds what the vector would put there hides a
partial decoding; `HoldsHeader` and `HoldsFooter` name these coincidences.
-/

namespace FrameTester

/-! ## The indices -/

/-- The indices the data loop reads, and the index behind them, which is missing
when the loop left the function. -/
def dataLoopReads (frameData : List Byte) : Nat → Nat → List Nat × Option Nat
  | 0, index => ([], some index)
  | rounds + 1, index =>
      if index + 1 < frameData.length then
        let (reads, behind) := dataLoopReads frameData rounds (index + 2)
        (index :: (index + 1) :: reads, behind)
      else
        ([], none)

/-- The indices `decodeFrame` reads, in order.  The second byte is read once for
`readWriteCommand` and once for `general`. -/
def decodeReads (frameData : List Byte) : List Nat :=
  if frameData.length < headerSize + footerSize then
    []
  else
    let (reads, behind) := dataLoopReads frameData 13 headerSize
    [0, 1, 1, 2, 3, 4, 5] ++ reads ++
      match behind with
      | none => []
      | some index => [index, index + 1]

/-- The data loop itself stays inside: its guard is the bound of its second
read. -/
theorem dataLoopReads_lt (frameData : List Byte) (rounds index : Nat) :
    ∀ i ∈ (dataLoopReads frameData rounds index).1, i < frameData.length := by
  induction rounds generalizing index with
  | zero => simp [dataLoopReads]
  | succ rounds ih =>
      intro i hi
      rw [dataLoopReads] at hi
      split at hi
      · rename_i hmore
        simp only [List.mem_cons] at hi
        rcases hi with rfl | rfl | hi
        · omega
        · exact hmore
        · exact ih (index + 2) i hi
      · simp at hi

/-- The loop runs to its end exactly when all its words are there. -/
theorem dataLoopReads_behind (frameData : List Byte) (rounds index : Nat)
    (hindex : index ≤ frameData.length) :
    (dataLoopReads frameData rounds index).2 =
      if index + 2 * rounds ≤ frameData.length then some (index + 2 * rounds) else none := by
  induction rounds generalizing index with
  | zero => simp [dataLoopReads, hindex]
  | succ rounds ih =>
      rw [dataLoopReads]
      by_cases hmore : index + 1 < frameData.length
      · have hend : index + 2 + 2 * rounds = index + 2 * (rounds + 1) := by omega
        rw [if_pos hmore]
        simp only [ih (index + 2) (by omega), hend]
      · rw [if_neg hmore, if_neg (by omega)]

/-- Only the footer can be read behind the end, and it is where the thirteen
words end the vector or leave one byte of it. -/
theorem decodeReads_lt_iff (frameData : List Byte) :
    (∀ i ∈ decodeReads frameData, i < frameData.length) ↔
      frameData.length ≠ 32 ∧ frameData.length ≠ 33 := by
  unfold decodeReads
  by_cases hshort : frameData.length < headerSize + footerSize
  · rw [if_pos hshort]
    simp only [headerSize, footerSize] at hshort
    simp only [List.not_mem_nil, false_implies, implies_true, true_iff]
    omega
  · rw [if_neg hshort]
    simp only [headerSize, footerSize] at hshort ⊢
    have hloop := dataLoopReads_lt frameData 13 6
    have hheader : ∀ i ∈ [0, 1, 1, 2, 3, 4, 5], i < frameData.length := by
      simp only [List.mem_cons, List.not_mem_nil, or_false]
      omega
    rw [dataLoopReads_behind frameData 13 6 (by omega)]
    constructor
    · intro hinside
      by_contra hlength
      have hfull : 6 + 2 * 13 ≤ frameData.length := by omega
      rw [if_pos hfull] at hinside
      have hlast := hinside (6 + 2 * 13 + 1) (by simp)
      omega
    · intro hlength i hi
      rw [List.mem_append, List.mem_append] at hi
      rcases hi with (hi | hi) | hi
      · exact hheader i hi
      · exact hloop i hi
      · split at hi
        · simp at hi
        · rename_i index hindex
          split at hindex
          · obtain rfl := Option.some.inj hindex
            simp only [List.mem_cons, List.not_mem_nil, or_false] at hi
            omega
          · cases hindex

/-! ## The four ranges of lengths -/

/-- The header and the data of a frame are those of a vector. -/
structure HoldsHeader (frame : Frame) (frameData : List Byte) : Prop where
  registerAddress : frameData[0]? = some frame.registerAddress
  readWriteCommand : frameData[1]?.map (fun packed => decide (packed &&& 0x01#8 ≠ 0)) =
    some frame.readWriteCommand
  general : frameData[1]?.map (fun packed : Byte => packed >>> 1) = some frame.general
  lengthCode : frameData[2]? = some frame.lengthCode
  chipAddress : frameData[3]? = some frame.chipAddress
  engineHigh : frameData[4]? = some (highByte frame.engineAddress)
  engineLow : frameData[5]? = some (lowByte frame.engineAddress)
  data : frame.data = pairWords ((frameData.drop 6).take 26)

/-- The footer fields of a frame are those of a vector. -/
structure HoldsFooter (frame : Frame) (frameData : List Byte) : Prop where
  cnt : frameData[32]? = some frame.cnt
  completion : frameData[33]?.map (fun flags => decide (flags &&& 0x01#8 ≠ 0)) =
    some frame.completion
  completionWithConditional :
    frameData[33]?.map (fun flags => decide ((flags &&& 0x02#8) >>> 1 ≠ 0)) =
      some frame.completionWithConditional

/-- A vector that passes the length check has a header. -/
theorem header_of_length {frameData : List Byte} (hlong : 10 ≤ frameData.length) :
    ∃ b0 b1 b2 b3 b4 b5 rest, frameData = b0 :: b1 :: b2 :: b3 :: b4 :: b5 :: rest ∧
      4 ≤ rest.length := by
  match frameData, hlong with
  | b0 :: b1 :: b2 :: b3 :: b4 :: b5 :: rest, hlong =>
      refine ⟨b0, b1, b2, b3, b4, b5, rest, rfl, ?_⟩
      simp only [List.length_cons] at hlong
      omega

/-- The header and the data of one frame with the footer fields of another. -/
def keepFooter (header frame : Frame) : Frame :=
  { header with
    cnt := frame.cnt
    completion := frame.completion
    completionWithConditional := frame.completionWithConditional }

theorem decodeFrame_short {frameData : List Byte} (hshort : frameData.length < 10)
    (frame : Frame) : decodeFrame frame frameData = some frame := by
  rw [decodeFrame, if_pos (by simpa [headerSize, footerSize] using hshort)]

/-- Between the length check and the end of the loop the footer fields are
kept. -/
theorem decodeFrame_unfinished {frameData : List Byte} (hlong : 10 ≤ frameData.length)
    (hshort : frameData.length < 32) :
    ∃ header, HoldsHeader header frameData ∧
      ∀ frame, decodeFrame frame frameData = some (keepFooter header frame) := by
  obtain ⟨b0, b1, b2, b3, b4, b5, rest, rfl, hrest⟩ := header_of_length hlong
  have hends : ¬ 26 ≤ rest.length := by
    simp only [List.length_cons] at hshort
    omega
  refine ⟨decodedHeader freshFrame b0 b1 b2 b3 b4 b5 rest, ?_, ?_⟩
  · constructor <;> simp [decodedHeader]
  · intro frame
    rw [decodeFrame_eq frame b0 b1 b2 b3 b4 b5 rest hrest, if_neg hends]
    rfl

/-- Where the loop completes and the footer is not there. -/
theorem decodeFrame_overrun {frameData : List Byte} (hlong : 32 ≤ frameData.length)
    (hshort : frameData.length < 34) (frame : Frame) : decodeFrame frame frameData = none := by
  obtain ⟨b0, b1, b2, b3, b4, b5, rest, rfl, hrest⟩ :=
    header_of_length (show 10 ≤ frameData.length by omega)
  simp only [List.length_cons] at hlong hshort
  have hflags : rest[27]? = none := List.getElem?_eq_none (by omega)
  rw [decodeFrame_eq frame b0 b1 b2 b3 b4 b5 rest hrest, if_pos (by omega), hflags]
  cases rest[26]? <;> rfl

/-- A whole frame is set from the vector alone. -/
theorem decodeFrame_whole {frameData : List Byte} (hlong : 34 ≤ frameData.length) :
    ∃ after, HoldsHeader after frameData ∧ HoldsFooter after frameData ∧
      ∀ frame, decodeFrame frame frameData = some after := by
  obtain ⟨b0, b1, b2, b3, b4, b5, rest, rfl, hrest⟩ :=
    header_of_length (show 10 ≤ frameData.length by omega)
  simp only [List.length_cons] at hlong
  have hcnt : 26 < rest.length := by omega
  have hflags : 27 < rest.length := by omega
  refine ⟨{ decodedHeader freshFrame b0 b1 b2 b3 b4 b5 rest with
    cnt := rest[26]
    completion := rest[27] &&& 0x01#8 ≠ 0
    completionWithConditional := (rest[27] &&& 0x02#8) >>> 1 ≠ 0 }, ?_, ?_, ?_⟩
  · constructor <;> simp [decodedHeader]
  · constructor <;> simp [hcnt, hflags]
  · intro frame
    rw [decodeFrame_eq frame b0 b1 b2 b3 b4 b5 rest hrest, if_pos (by omega),
      List.getElem?_eq_getElem hcnt, List.getElem?_eq_getElem hflags]
    rfl

/-- What `decodeFrame` does with a vector, by its length. -/
theorem decodeFrame_cases (frameData : List Byte) :
    (frameData.length < 10 ∧ ∀ frame, decodeFrame frame frameData = some frame) ∨
    (10 ≤ frameData.length ∧ frameData.length < 32 ∧
      ∃ header, HoldsHeader header frameData ∧
        ∀ frame, decodeFrame frame frameData = some (keepFooter header frame)) ∨
    (32 ≤ frameData.length ∧ frameData.length < 34 ∧
      ∀ frame, decodeFrame frame frameData = none) ∨
    (34 ≤ frameData.length ∧
      ∃ after, HoldsHeader after frameData ∧ HoldsFooter after frameData ∧
        ∀ frame, decodeFrame frame frameData = some after) := by
  by_cases hshort : frameData.length < 10
  · exact .inl ⟨hshort, decodeFrame_short hshort⟩
  by_cases hends : frameData.length < 32
  · exact .inr (.inl ⟨by omega, hends, decodeFrame_unfinished (by omega) hends⟩)
  by_cases hover : frameData.length < 34
  · exact .inr (.inr (.inl ⟨by omega, hover, decodeFrame_overrun (by omega) hover⟩))
  · exact .inr (.inr (.inr ⟨by omega, decodeFrame_whole (by omega)⟩))

/-- The frame is decoded exactly where the footer is not read behind the end. -/
theorem decodeFrame_isSome_iff (frame : Frame) (frameData : List Byte) :
    (decodeFrame frame frameData).isSome ↔
      frameData.length ≠ 32 ∧ frameData.length ≠ 33 := by
  rcases decodeFrame_cases frameData with ⟨hlength, hdecode⟩ |
    ⟨-, hlength, header, -, hdecode⟩ | ⟨hlong, hlength, hdecode⟩ | ⟨hlength, after, -, -, hdecode⟩
  · exact iff_of_true (by rw [hdecode]; rfl) (by omega)
  · exact iff_of_true (by rw [hdecode]; rfl) (by omega)
  · exact iff_of_false (by rw [hdecode]; simp) (by omega)
  · exact iff_of_true (by rw [hdecode]; rfl) (by omega)

/-- **Where the decoder stays inside its input.**  From any previous frame, every
index is inside the vector unless the vector has 32 or 33 bytes; these are the
reads on which the embedding of the decoder gives up. -/
theorem reads_inside_iff (frame : Frame) (frameData : List Byte) :
    ((∀ i ∈ decodeReads frameData, i < frameData.length) ↔
      frameData.length ≠ 32 ∧ frameData.length ≠ 33) ∧
    ((decodeFrame frame frameData).isSome ↔
      ∀ i ∈ decodeReads frameData, i < frameData.length) := by
  refine ⟨decodeReads_lt_iff frameData, ?_⟩
  rw [decodeFrame_isSome_iff, decodeReads_lt_iff]

/-- Thirty-two bytes, as eleven data words are encoded: `cnt` is read behind the
last one. -/
theorem reads_behind_eleven_words :
    ¬ ∀ i ∈ decodeReads (encodeFrame { freshFrame with data := List.replicate 11 0 }),
      i < (encodeFrame { freshFrame with data := List.replicate 11 0 }).length := by
  decide

/-! ## The data words -/

/-- The data of a frame that holds a vector, by number and as bytes. -/
theorem HoldsHeader.data_bytes {frame : Frame} {frameData : List Byte}
    (h : HoldsHeader frame frameData) :
    frame.data.length = min 13 ((frameData.length - 6) / 2) ∧
      dataBytes frame.data = (frameData.drop 6).take (2 * frame.data.length) := by
  have hlength : frame.data.length = min 13 ((frameData.length - 6) / 2) := by
    rw [h.data, length_pairWords, List.length_take, List.length_drop]
    omega
  refine ⟨hlength, ?_⟩
  have hwhole : 2 * (((frameData.drop 6).take 26).length / 2) = 2 * frame.data.length := by
    rw [h.data, length_pairWords]
  have hfits : 2 * frame.data.length ≤ 26 := by
    rw [hlength]
    omega
  rw [← hwhole, h.data, dataBytes_pairWords, hwhole, List.take_take, Nat.min_eq_left hfits]

/-- **The data words survive.**  Whatever the frame held before, the words that a
vector sets are as many as it has room for, up to thirteen, and the encoder's loop
writes out the bytes they were read from. -/
theorem data_words_survive (frame : Frame) (frameData : List Byte)
    (hlength : 10 ≤ frameData.length ∧ frameData.length ≤ 31 ∨ 34 ≤ frameData.length) :
    ∃ after, decodeFrame frame frameData = some after ∧
      after.data.length = min 13 ((frameData.length - 6) / 2) ∧
      dataBytes after.data = (frameData.drop 6).take (2 * after.data.length) := by
  rcases hlength with ⟨hlong, hshort⟩ | hlong
  · obtain ⟨header, hheader, hdecode⟩ := decodeFrame_unfinished hlong (by omega)
    exact ⟨keepFooter header frame, hdecode frame, hheader.data_bytes⟩
  · obtain ⟨after, hheader, -, hdecode⟩ := decodeFrame_whole hlong
    exact ⟨after, hdecode frame, hheader.data_bytes⟩

/-- Eleven bytes: two words, and the eleventh byte is dropped. -/
theorem data_words_survive_odd :
    ∃ after, decodeFrame freshFrame [0, 1, 2, 3, 4, 5, 6, 7, 8, 9, 10] = some after ∧
      after.data.length = 2 ∧ dataBytes after.data = [6, 7, 8, 9] := by
  obtain ⟨after, hdecode, hlength, hbytes⟩ :=
    data_words_survive freshFrame [0, 1, 2, 3, 4, 5, 6, 7, 8, 9, 10] (by decide)
  have htwo : after.data.length = 2 := hlength
  rw [htwo] at hbytes
  exact ⟨after, hdecode, htwo, hbytes⟩

/-! ## What is left unchanged -/

/-- What a vector sets is determined by it: two frames that hold it agree on the
header and the data. -/
theorem HoldsHeader.eq {header frame : Frame} {frameData : List Byte}
    (hheader : HoldsHeader header frameData) :
    HoldsHeader frame frameData ↔ keepFooter header frame = frame := by
  constructor
  · intro hframe
    have hengine : header.engineAddress = frame.engineAddress := by
      apply word_eq_of_bytes
      · exact Option.some.inj (hheader.engineHigh.symm.trans hframe.engineHigh)
      · exact Option.some.inj (hheader.engineLow.symm.trans hframe.engineLow)
    have hregister := Option.some.inj (hheader.registerAddress.symm.trans hframe.registerAddress)
    have hcommand := Option.some.inj (hheader.readWriteCommand.symm.trans hframe.readWriteCommand)
    have hgeneral := Option.some.inj (hheader.general.symm.trans hframe.general)
    have hlength := Option.some.inj (hheader.lengthCode.symm.trans hframe.lengthCode)
    have hchip := Option.some.inj (hheader.chipAddress.symm.trans hframe.chipAddress)
    have hdata := hheader.data.trans hframe.data.symm
    rw [keepFooter, hregister, hcommand, hgeneral, hlength, hchip, hengine, hdata]
  · intro heq
    rw [← heq]
    exact ⟨hheader.registerAddress, hheader.readWriteCommand, hheader.general,
      hheader.lengthCode, hheader.chipAddress, hheader.engineHigh, hheader.engineLow,
      hheader.data⟩

/-- The footer of a vector is behind thirteen words. -/
theorem HoldsFooter.length {frame : Frame} {frameData : List Byte}
    (h : HoldsFooter frame frameData) : 34 ≤ frameData.length := by
  by_contra hshort
  have hnone : frameData[33]? = none := List.getElem?_eq_none (by omega)
  simpa [hnone] using h.completion

/-- Two frames that hold a whole vector are equal. -/
theorem HoldsFooter.eq {after frame : Frame} {frameData : List Byte}
    (hheader : HoldsHeader after frameData) (hfooter : HoldsFooter after frameData)
    (hframe : HoldsHeader frame frameData) (hframefooter : HoldsFooter frame frameData) :
    after = frame := by
  have hcnt := Option.some.inj (hfooter.cnt.symm.trans hframefooter.cnt)
  have hcompletion := Option.some.inj (hfooter.completion.symm.trans hframefooter.completion)
  have hconditional := Option.some.inj
    (hfooter.completionWithConditional.symm.trans hframefooter.completionWithConditional)
  rw [← hheader.eq.mp hframe, keepFooter, ← hcnt, ← hcompletion, ← hconditional]

/-- **What `decodeFrame` leaves unchanged**: a frame that is not looked at, or that
already holds everything the vector sets. -/
theorem decodeFrame_unchanged_iff (frame : Frame) (frameData : List Byte) :
    decodeFrame frame frameData = some frame ↔
      frameData.length < 10 ∨
        HoldsHeader frame frameData ∧
          (frameData.length < 32 ∨ HoldsFooter frame frameData) := by
  rcases decodeFrame_cases frameData with ⟨hshort, hdecode⟩ |
    ⟨hlong, hshort, header, hheader, hdecode⟩ | ⟨hlong, hshort, hdecode⟩ |
    ⟨hlong, after, hheader, hfooter, hdecode⟩
  · exact iff_of_true (hdecode frame) (.inl hshort)
  · rw [hdecode, Option.some.injEq, ← hheader.eq, or_iff_right (by omega),
      and_iff_left (.inl hshort)]
  · apply iff_of_false (by simp [hdecode])
    intro hparts
    rcases hparts with h | ⟨-, h | hfooter⟩
    · omega
    · omega
    · have hlength := hfooter.length
      omega
  · rw [hdecode, Option.some.injEq, or_iff_right (by omega)]
    constructor
    · intro heq
      exact heq ▸ ⟨hheader, .inr hfooter⟩
    · intro hparts
      obtain ⟨hframe, h | hframefooter⟩ := hparts
      · omega
      · exact HoldsFooter.eq hheader hfooter hframe hframefooter

/-! ## All or nothing -/

/-- After the call the frame is as it was, or all its fields are what the vector
alone makes of any frame. -/
def AllOrNothing (frame : Frame) (frameData : List Byte) : Prop :=
  decodeFrame frame frameData = some frame ∨
    ∃ after, ∀ other, decodeFrame other frameData = some after

/-- The vector decides all ten fields exactly when the footer is inside it; the
early return of the data loop keeps the footer fields of the previous frame. -/
theorem decodeFrame_determined_iff (frameData : List Byte) :
    (∃ after, ∀ other, decodeFrame other frameData = some after) ↔ 34 ≤ frameData.length := by
  constructor
  · intro hdetermined
    obtain ⟨after, hall⟩ := hdetermined
    -- two frames that differ in a footer flag only
    have hsame := (hall freshFrame).trans (hall { freshFrame with completion := true }).symm
    have hflag := congrArg (fun decoded => decoded.map Frame.completion) hsame
    rcases decodeFrame_cases frameData with ⟨-, hdecode⟩ | ⟨-, -, header, -, hdecode⟩ |
      ⟨-, -, hdecode⟩ | ⟨hlong, -⟩
    · simp [hdecode, freshFrame] at hflag
    · simp [hdecode, keepFooter, freshFrame] at hflag
    · have hnone := hall freshFrame
      rw [hdecode] at hnone
      cases hnone
    · exact hlong
  · intro hlong
    obtain ⟨after, -, -, hdecode⟩ := decodeFrame_whole hlong
    exact ⟨after, hdecode⟩

/-- **All or nothing, exactly.**  The lengths 10 to 31 set the header and the data
only, which shows unless the frame held them already. -/
theorem all_or_nothing_iff (frame : Frame) (frameData : List Byte) :
    AllOrNothing frame frameData ↔
      frameData.length < 10 ∨ 34 ≤ frameData.length ∨
        frameData.length < 32 ∧ HoldsHeader frame frameData := by
  rw [AllOrNothing, decodeFrame_unchanged_iff, decodeFrame_determined_iff]
  constructor
  · intro h
    rcases h with (hshort | ⟨hheader, hends | hfooter⟩) | hlong
    · exact .inl hshort
    · exact .inr (.inr ⟨hends, hheader⟩)
    · exact .inr (.inl hfooter.length)
    · exact .inr (.inl hlong)
  · intro h
    rcases h with hshort | hlong | ⟨hends, hheader⟩
    · exact .inl (.inl hshort)
    · exact .inr hlong
    · exact .inl (.inr ⟨hheader, .inl hends⟩)

/-- The tester's two data words arrive in a frame object with `cnt` 3: the
register address is the new one and `cnt` is the old one. -/
theorem mixes_two_frames :
    ¬ AllOrNothing { freshFrame with cnt := 3 }
      (encodeFrame { freshFrame with registerAddress := 1, data := [0xAAAA, 0x5555] }) := by
  intro h
  rcases h with hkept | hset
  · have haddress := congrArg (fun decoded => decoded.map Frame.registerAddress) hkept
    revert haddress
    decide
  · obtain ⟨after, hall⟩ := hset
    have hthree := hall { freshFrame with cnt := 3 }
    have hzero := hall freshFrame
    have hcnt := congrArg (fun decoded => decoded.map Frame.cnt) (hthree.trans hzero.symm)
    revert hcnt
    decide

/-! ## Corrupted frames -/

/-- A vector with a wrong checksum leaves the frame alone. -/
def CorruptedKept (frame : Frame) (frameData : List Byte) : Prop :=
  calculateCRC frameData ≠ 0 → decodeFrame frame frameData = some frame

/-- **Corrupted frames, exactly.**  The decoder never computes the checksum: a
corrupted vector is refused only for its length, or does not show because the
frame held its content already. -/
theorem corrupted_kept_iff (frame : Frame) (frameData : List Byte) :
    CorruptedKept frame frameData ↔
      calculateCRC frameData = 0 ∨ frameData.length < 10 ∨
        HoldsHeader frame frameData ∧
          (frameData.length < 32 ∨ HoldsFooter frame frameData) := by
  rw [CorruptedKept, decodeFrame_unchanged_iff]
  by_cases hcrc : calculateCRC frameData = 0
  · exact iff_of_true (fun hne => absurd hcrc hne) (.inl hcrc)
  · rw [or_iff_right hcrc]
    exact ⟨fun h => h hcrc, fun h _ => h⟩

/-- A bit of the register address flipped in an encoded frame: the residue shows
it, and the fresh frame takes the wrong address over. -/
theorem corrupted_frame_taken_over :
    ¬ CorruptedKept freshFrame (1 :: (encodeFrame freshFrame).tail) := by
  intro h
  have hcrc : calculateCRC (1 :: (encodeFrame freshFrame).tail) ≠ 0 := by decide +kernel
  have haddress := congrArg (fun decoded => decoded.map Frame.registerAddress) (h hcrc)
  revert haddress
  decide

end FrameTester
