import Mathlib.Data.List.Basic
import Mathlib.Logic.Function.Iterate

/-!
# The frame tester's codec

`examples/frame_tester/Frame.cpp` keeps ten settable fields, writes them out as
bytes (`encodeFrame`), reads bytes back into a frame (`decodeFrame`), and closes
every frame with a sixteen-bit CRC (`calculateCRC`).  This file embeds the three
functions field by field, with the machine types of the source: `uint8_t` and
`uint16_t` are bit vectors and the vector of bytes is a list.

`decodeFrame` reads its input by index without checking each one, so its
embedding is partial: `none` is a read behind the end of the vector.  The closed
forms `dataLoop_eq` and `decodeFrame_eq` say what the thirteen-word loop and the
reads around it come to for an input of any length.
-/

namespace FrameTester

/-- `uint8_t`. -/
abbrev Byte := BitVec 8

/-- `uint16_t`. -/
abbrev Word := BitVec 16

/-- The fields of class `Frame` that have a setter.  The eleventh member, `crc`,
is set to zero by the constructor and never used again. -/
structure Frame where
  registerAddress : Byte
  readWriteCommand : Bool
  lengthCode : Byte
  chipAddress : Byte
  engineAddress : Word
  data : List Word
  general : Byte
  cnt : Byte
  completion : Bool
  completionWithConditional : Bool
deriving DecidableEq, Repr

/-- The frame the constructor builds. -/
def freshFrame : Frame where
  registerAddress := 0
  readWriteCommand := false
  lengthCode := 0
  chipAddress := 0
  engineAddress := 0
  data := []
  general := 0
  cnt := 0
  completion := false
  completionWithConditional := false

/-! ## Words and bytes -/

/-- `static_cast<uint8_t>(word >> 8)`. -/
def highByte (word : Word) : Byte := (word >>> 8).setWidth 8

/-- `static_cast<uint8_t>(word & 0xFF)`. -/
def lowByte (word : Word) : Byte := (word &&& 0xFF#16).setWidth 8

/-- `static_cast<uint16_t>(high << 8)`, then `|= low`. -/
def joinBytes (high low : Byte) : Word := (high.setWidth 16 <<< 8) ||| low.setWidth 16

/-- The mask has ones in the low byte. -/
theorem lowMask_getLsbD {i : Nat} (hi : i < 8) : (0xFF#16).getLsbD i = true := by
  have hall : ∀ j : Fin 8, (0xFF#16).getLsbD j = true := by decide
  exact hall ⟨i, hi⟩

/-- The high byte of two joined bytes. -/
@[simp] theorem highByte_joinBytes (high low : Byte) :
    highByte (joinBytes high low) = high := by
  apply BitVec.eq_of_getLsbD_eq
  intro i hi
  simp [highByte, joinBytes, hi, show 8 + i < 16 by omega]

/-- The low byte of two joined bytes. -/
@[simp] theorem lowByte_joinBytes (high low : Byte) :
    lowByte (joinBytes high low) = low := by
  apply BitVec.eq_of_getLsbD_eq
  intro i hi
  rw [lowByte, BitVec.getLsbD_setWidth, BitVec.getLsbD_and, lowMask_getLsbD hi]
  simp [joinBytes, hi, show i < 16 by omega]

/-- A word is its two bytes. -/
@[simp] theorem joinBytes_highByte_lowByte (word : Word) :
    joinBytes (highByte word) (lowByte word) = word := by
  apply BitVec.eq_of_getLsbD_eq
  intro i hi
  rw [joinBytes, BitVec.getLsbD_or, BitVec.getLsbD_shiftLeft, BitVec.getLsbD_setWidth,
    BitVec.getLsbD_setWidth, highByte, lowByte, BitVec.getLsbD_setWidth,
    BitVec.getLsbD_setWidth, BitVec.getLsbD_and, BitVec.getLsbD_ushiftRight]
  by_cases hlow : i < 8
  · simp [hlow, hi, lowMask_getLsbD hlow]
  · have hsum : 8 + (i - 8) = i := by omega
    simp [hlow, hi, hsum, show i - 8 < 16 by omega, show i - 8 < 8 by omega]

/-- Two words are equal when both of their bytes are. -/
theorem word_eq_of_bytes {a b : Word} (hhigh : highByte a = highByte b)
    (hlow : lowByte a = lowByte b) : a = b := by
  rw [← joinBytes_highByte_lowByte a, hhigh, hlow, joinBytes_highByte_lowByte]

/-- The data words as they go on the wire, high byte first. -/
def dataBytes (data : List Word) : List Byte :=
  data.flatMap fun word => [highByte word, lowByte word]

/-- No words, no bytes. -/
@[simp] theorem dataBytes_nil : dataBytes [] = [] := rfl

/-- A word is written high byte first. -/
@[simp] theorem dataBytes_cons (word : Word) (rest : List Word) :
    dataBytes (word :: rest) = highByte word :: lowByte word :: dataBytes rest := rfl

/-- Two bytes for each word. -/
@[simp] theorem length_dataBytes (data : List Word) :
    (dataBytes data).length = 2 * data.length := by
  induction data with
  | nil => rfl
  | cons word rest ih => simp [ih]; omega

/-- Pair bytes up into words; a last odd byte is dropped. -/
def pairWords : List Byte → List Word
  | high :: low :: rest => joinBytes high low :: pairWords rest
  | _ => []

/-- Pairing the bytes of words gives the words back. -/
@[simp] theorem pairWords_dataBytes (data : List Word) :
    pairWords (dataBytes data) = data := by
  induction data with
  | nil => rfl
  | cons word rest ih => simp [pairWords, ih]

/-- So no two lists of words have the same bytes. -/
theorem dataBytes_injective : Function.Injective dataBytes :=
  Function.LeftInverse.injective pairWords_dataBytes

/-- A word for each pair; a byte too many is dropped. -/
@[simp] theorem length_pairWords (bytes : List Byte) :
    (pairWords bytes).length = bytes.length / 2 := by
  induction bytes using pairWords.induct with
  | case1 high low rest ih =>
      simp only [pairWords, List.length_cons, ih]
      omega
  | case2 bytes hshort =>
      cases bytes with
      | nil => rfl
      | cons high rest =>
          cases rest with
          | nil => simp [pairWords]
          | cons low rest => exact absurd rfl (hshort high low rest)

/-- Writing paired bytes out again loses only an odd last byte. -/
theorem dataBytes_pairWords (bytes : List Byte) :
    dataBytes (pairWords bytes) = bytes.take (2 * (bytes.length / 2)) := by
  induction bytes using pairWords.induct with
  | case1 high low rest ih =>
      have hlen : 2 * ((rest.length + 1 + 1) / 2) = 2 * (rest.length / 2) + 1 + 1 := by omega
      simp [pairWords, ih, hlen]
  | case2 bytes hshort =>
      cases bytes with
      | nil => rfl
      | cons high rest =>
          cases rest with
          | nil => simp [pairWords]
          | cons low rest => exact absurd rfl (hshort high low rest)

/-! ## The checksum -/

/-- The generator `x^16 + x^15 + x^2 + 1` without its leading term. -/
def polynomial : Word := 0x8005#16

/-- One round of the inner loop of `calculateCRC`. -/
def crcShift (crc : Word) : Word :=
  if crc &&& 0x8000#16 ≠ 0 then (crc <<< 1) ^^^ polynomial else crc <<< 1

/-- The body of the outer loop: merge a byte into the CRC and shift eight
times. -/
def crcByte (crc : Word) (byte : Byte) : Word :=
  crcShift^[8] (crc ^^^ (byte.setWidth 16 <<< 8))

def calculateCRC (frameData : List Byte) : Word :=
  frameData.foldl crcByte 0x0000#16

/-! ## Encoding -/

/-- `general` in the upper seven bits and the read/write flag in the lowest. -/
def generalByte (general : Byte) (readWriteCommand : Bool) : Byte :=
  ((general <<< 1) &&& 0xFE#8) ||| (if readWriteCommand then 0x01#8 else 0x00#8)

/-- The two completion flags in one byte. -/
def completionByte (completion completionWithConditional : Bool) : Byte :=
  (BitVec.ofBool completion).setWidth 8 |||
    ((BitVec.ofBool completionWithConditional).setWidth 8 <<< 1)

/-- Everything `encodeFrame` has pushed when it computes the checksum. -/
def frameBody (frame : Frame) : List Byte :=
  [frame.registerAddress, frame.lengthCode, frame.chipAddress,
    highByte frame.engineAddress, lowByte frame.engineAddress] ++
  dataBytes frame.data ++
  [generalByte frame.general frame.readWriteCommand, frame.cnt,
    completionByte frame.completion frame.completionWithConditional]

def encodeFrame (frame : Frame) : List Byte :=
  let frameBytes := frameBody frame
  let crcValue := calculateCRC frameBytes
  frameBytes ++ [highByte crcValue, lowByte crcValue]

/-- Ten bytes around those of the data words. -/
theorem length_encodeFrame (frame : Frame) :
    (encodeFrame frame).length = 10 + 2 * frame.data.length := by
  simp [encodeFrame, frameBody]
  omega

/-! ## Decoding -/

/-- The data loop of `decodeFrame`, with `rounds` rounds left.  The result is the
data read and the index behind it; the index is missing when the loop left the
function because no whole word was left. -/
def dataLoop (frameData : List Byte) :
    Nat → Nat → List Word → Option (List Word × Option Nat)
  | 0, index, data => some (data, some index)
  | rounds + 1, index, data =>
      if index + 1 < frameData.length then do
        let high ← frameData[index]?
        let low ← frameData[index + 1]?
        dataLoop frameData rounds (index + 2) (data ++ [joinBytes high low])
      else
        some (data, none)

def headerSize : Nat := 6

def footerSize : Nat := 4

/-- `frame.decodeFrame(frameData)`: the frame afterwards, or `none` when an index
behind the end of `frameData` is read. -/
def decodeFrame (frame : Frame) (frameData : List Byte) : Option Frame :=
  if frameData.length < headerSize + footerSize then
    some frame
  else do
    let registerAddress ← frameData[0]?
    let packed ← frameData[1]?
    let lengthCode ← frameData[2]?
    let chipAddress ← frameData[3]?
    let engineHigh ← frameData[4]?
    let engineLow ← frameData[5]?
    let (data, index) ← dataLoop frameData 13 headerSize []
    let frame := { frame with
      registerAddress := registerAddress
      readWriteCommand := packed &&& 0x01#8 ≠ 0
      general := packed >>> 1
      lengthCode := lengthCode
      chipAddress := chipAddress
      engineAddress := joinBytes engineHigh engineLow
      data := data }
    match index with
    | none => some frame
    | some index => do
        let cnt ← frameData[index]?
        let flags ← frameData[index + 1]?
        some { frame with
          cnt := cnt
          completion := flags &&& 0x01#8 ≠ 0
          completionWithConditional := (flags &&& 0x02#8) >>> 1 ≠ 0 }

/-- The data loop never reads behind the input.  It collects the words of the
bytes it reaches, and it runs to its end exactly when all of them are there. -/
theorem dataLoop_eq (frameData : List Byte) (rounds index : Nat) (data : List Word)
    (hindex : index ≤ frameData.length) :
    dataLoop frameData rounds index data =
      some (data ++ pairWords ((frameData.drop index).take (2 * rounds)),
        if index + 2 * rounds ≤ frameData.length then some (index + 2 * rounds) else none) := by
  induction rounds generalizing index data with
  | zero => simp [dataLoop, pairWords, hindex]
  | succ rounds ih =>
      by_cases hmore : index + 1 < frameData.length
      · have hhigh : index < frameData.length := by omega
        have hdrop : frameData.drop index =
            frameData[index] :: frameData[index + 1] :: frameData.drop (index + 2) := by
          rw [List.drop_eq_getElem_cons hhigh, List.drop_eq_getElem_cons hmore]
        have hround : 2 * (rounds + 1) = 2 * rounds + 1 + 1 := by omega
        have hend : index + 2 + 2 * rounds = index + (2 * rounds + 1 + 1) := by omega
        simp only [dataLoop, hmore, if_true, List.getElem?_eq_getElem hhigh,
          List.getElem?_eq_getElem hmore, Option.bind_eq_bind, Option.bind_some]
        rw [ih _ _ (by omega), hdrop, hround, List.take_succ_cons, List.take_succ_cons,
          pairWords, hend]
        simp
      · have hshort : pairWords ((frameData.drop index).take (2 * (rounds + 1))) = [] := by
          apply List.length_eq_zero_iff.mp
          rw [length_pairWords, List.length_take, List.length_drop]
          omega
        simp [dataLoop, hmore, hshort]
        omega

/-- The fields `decodeFrame` sets from the six header bytes and the bytes
behind them. -/
def decodedHeader (frame : Frame) (b0 b1 b2 b3 b4 b5 : Byte) (rest : List Byte) : Frame :=
  { frame with
    registerAddress := b0
    readWriteCommand := b1 &&& 0x01#8 ≠ 0
    general := b1 >>> 1
    lengthCode := b2
    chipAddress := b3
    engineAddress := joinBytes b4 b5
    data := pairWords (rest.take 26) }

/-- `decodeFrame` on an input long enough for it: the header and the data are
always taken over, the footer only behind thirteen whole words. -/
theorem decodeFrame_eq (frame : Frame) (b0 b1 b2 b3 b4 b5 : Byte) (rest : List Byte)
    (hlen : 4 ≤ rest.length) :
    decodeFrame frame (b0 :: b1 :: b2 :: b3 :: b4 :: b5 :: rest) =
      if 26 ≤ rest.length then
        rest[26]?.bind fun cnt => rest[27]?.bind fun flags =>
          some { decodedHeader frame b0 b1 b2 b3 b4 b5 rest with
            cnt := cnt
            completion := flags &&& 0x01#8 ≠ 0
            completionWithConditional := (flags &&& 0x02#8) >>> 1 ≠ 0 }
      else
        some (decodedHeader frame b0 b1 b2 b3 b4 b5 rest) := by
  have hlong : ¬(b0 :: b1 :: b2 :: b3 :: b4 :: b5 :: rest).length < headerSize + footerSize := by
    simp only [List.length_cons, headerSize, footerSize]
    omega
  have hloop := dataLoop_eq (b0 :: b1 :: b2 :: b3 :: b4 :: b5 :: rest) 13 headerSize []
    (by simp [headerSize])
  unfold decodeFrame
  rw [if_neg hlong, hloop]
  by_cases hfull : 26 ≤ rest.length <;> simp [hfull, headerSize, decodedHeader]

end FrameTester
