import BlockstreamStation.Doubles
import BlockstreamStation.StringEscapes

/-!
# Grisu2

`dtoa_impl::grisu2` of the vendored `nlohmann::json`, which generates the digits of a
positive double.  The double and the boundaries half way to its neighbours become
numbers `f * 2 ^ e` with 64 bits, one of 79 cached powers of ten scales them, and the
digits of the upper boundary are generated until the lower one is passed.

The buffer holds a character `'0' + d` for each of its digits; here it is the list of
the digits, in `room` bytes.  Unsigned arithmetic wraps around where it can.
-/

namespace DtoaImpl

open Doubles JsonText

/-- `std::uint64_t` of a number. -/
def uint64 (n : Nat) : Nat := n % 2 ^ 64

/-- `std::uint32_t` of a number. -/
def uint32 (n : Nat) : Nat := n % 2 ^ 32

/-! ## Numbers with 64 bits and an exponent -/

/-- `f * 2 ^ e`. -/
structure Diyfp where
  f : Nat
  e : Int
deriving DecidableEq

/-- `diyfp::sub`. -/
def Diyfp.sub (x y : Diyfp) : Except DumpFault Diyfp :=
  if x.e = y.e ∧ y.f ≤ x.f then return ⟨x.f - y.f, x.e⟩ else .error .assertion

/-- `diyfp::mul`: the upper half of the product, rounded. -/
def Diyfp.mul (x y : Diyfp) : Diyfp :=
  let u_lo := x.f % 2 ^ 32
  let u_hi := x.f / 2 ^ 32
  let v_lo := y.f % 2 ^ 32
  let v_hi := y.f / 2 ^ 32
  let p0 := uint64 (u_lo * v_lo)
  let p1 := uint64 (u_lo * v_hi)
  let p2 := uint64 (u_hi * v_lo)
  let p3 := uint64 (u_hi * v_hi)
  -- rounding, ties up
  let Q := uint64 (p0 / 2 ^ 32 + p1 % 2 ^ 32 + p2 % 2 ^ 32 + 2 ^ 31)
  ⟨uint64 (p3 + p2 / 2 ^ 32 + p1 / 2 ^ 32 + Q / 2 ^ 32), x.e + y.e + 64⟩

/-- The loop of `diyfp::normalize`, which ends within 63 shifts if the number is not
zero. -/
def normalizeLoop : Nat → Diyfp → Diyfp
  | 0, x => x
  | shifts + 1, x =>
      if x.f / 2 ^ 63 = 0 then normalizeLoop shifts ⟨uint64 (x.f * 2), x.e - 1⟩ else x

/-- `diyfp::normalize`. -/
def Diyfp.normalize (x : Diyfp) : Except DumpFault Diyfp :=
  if x.f ≠ 0 then return normalizeLoop 63 x else .error .assertion

/-- `diyfp::normalize_to`. -/
def Diyfp.normalizeTo (x : Diyfp) (target_exponent : Int) : Except DumpFault Diyfp :=
  let delta := x.e - target_exponent
  let f := uint64 (x.f * 2 ^ delta.toNat)
  if 0 ≤ delta ∧ f / 2 ^ delta.toNat = x.f then return ⟨f, target_exponent⟩
  else .error .assertion

/-! ## The boundaries -/

/-- `std::isfinite(value)` and `value > 0`. -/
def Positive (value : Double) : Prop :=
  value.isFinite = true ∧ value.isZero = false ∧ value.signbit = false

instance (value : Double) : Decidable (Positive value) := by unfold Positive; infer_instance

structure Boundaries where
  w : Diyfp
  minus : Diyfp
  plus : Diyfp

/-- `kBias` of a `double`. -/
def kBias : Int := 1024 - 1 + 52

def kMinExp : Int := 1 - kBias

def kHiddenBit : Nat := 2 ^ 52

/-- The number as `f * 2 ^ e`, with the hidden bit of its fraction if it has one. -/
def significand (value : Double) : Diyfp :=
  let E : Nat := value.bits.toNat / 2 ^ 52
  let F : Nat := value.bits.toNat % kHiddenBit
  if E = 0 then ⟨F, kMinExp⟩ else ⟨F + kHiddenBit, E - kBias⟩

/-- Is the neighbour below only half as far as the one above? -/
def LowerBoundaryIsCloser (value : Double) : Prop :=
  value.bits.toNat % kHiddenBit = 0 ∧ 1 < value.bits.toNat / 2 ^ 52

instance (value : Double) : Decidable (LowerBoundaryIsCloser value) := by
  unfold LowerBoundaryIsCloser; infer_instance

/-- Half way to the neighbour above. -/
def mPlus (value : Double) : Diyfp :=
  let v := significand value
  ⟨2 * v.f + 1, v.e - 1⟩

/-- Half way to the neighbour below. -/
def mMinus (value : Double) : Diyfp :=
  let v := significand value
  if LowerBoundaryIsCloser value then ⟨4 * v.f - 1, v.e - 2⟩ else ⟨2 * v.f - 1, v.e - 1⟩

/-- `compute_boundaries`. -/
def computeBoundaries (value : Double) : Except DumpFault Boundaries :=
  if Positive value then do
    let w_plus ← (mPlus value).normalize
    let w_minus ← (mMinus value).normalizeTo w_plus.e
    let w ← (significand value).normalize
    return ⟨w, w_minus, w_plus⟩
  else .error .assertion

/-! ## The cached powers of ten -/

def kAlpha : Int := -60

def kGamma : Int := -32

/-- `f * 2 ^ e`, which is `10 ^ k` rounded. -/
structure CachedPower where
  f : Nat
  e : Int
  k : Int

def kCachedPowersMinDecExp : Int := -300

def kCachedPowersDecStep : Int := 8

def kCachedPowers : List CachedPower := [
  ⟨0xAB70FE17C79AC6CA, -1060, -300⟩,
  ⟨0xFF77B1FCBEBCDC4F, -1034, -292⟩,
  ⟨0xBE5691EF416BD60C, -1007, -284⟩,
  ⟨0x8DD01FAD907FFC3C, -980, -276⟩,
  ⟨0xD3515C2831559A83, -954, -268⟩,
  ⟨0x9D71AC8FADA6C9B5, -927, -260⟩,
  ⟨0xEA9C227723EE8BCB, -901, -252⟩,
  ⟨0xAECC49914078536D, -874, -244⟩,
  ⟨0x823C12795DB6CE57, -847, -236⟩,
  ⟨0xC21094364DFB5637, -821, -228⟩,
  ⟨0x9096EA6F3848984F, -794, -220⟩,
  ⟨0xD77485CB25823AC7, -768, -212⟩,
  ⟨0xA086CFCD97BF97F4, -741, -204⟩,
  ⟨0xEF340A98172AACE5, -715, -196⟩,
  ⟨0xB23867FB2A35B28E, -688, -188⟩,
  ⟨0x84C8D4DFD2C63F3B, -661, -180⟩,
  ⟨0xC5DD44271AD3CDBA, -635, -172⟩,
  ⟨0x936B9FCEBB25C996, -608, -164⟩,
  ⟨0xDBAC6C247D62A584, -582, -156⟩,
  ⟨0xA3AB66580D5FDAF6, -555, -148⟩,
  ⟨0xF3E2F893DEC3F126, -529, -140⟩,
  ⟨0xB5B5ADA8AAFF80B8, -502, -132⟩,
  ⟨0x87625F056C7C4A8B, -475, -124⟩,
  ⟨0xC9BCFF6034C13053, -449, -116⟩,
  ⟨0x964E858C91BA2655, -422, -108⟩,
  ⟨0xDFF9772470297EBD, -396, -100⟩,
  ⟨0xA6DFBD9FB8E5B88F, -369, -92⟩,
  ⟨0xF8A95FCF88747D94, -343, -84⟩,
  ⟨0xB94470938FA89BCF, -316, -76⟩,
  ⟨0x8A08F0F8BF0F156B, -289, -68⟩,
  ⟨0xCDB02555653131B6, -263, -60⟩,
  ⟨0x993FE2C6D07B7FAC, -236, -52⟩,
  ⟨0xE45C10C42A2B3B06, -210, -44⟩,
  ⟨0xAA242499697392D3, -183, -36⟩,
  ⟨0xFD87B5F28300CA0E, -157, -28⟩,
  ⟨0xBCE5086492111AEB, -130, -20⟩,
  ⟨0x8CBCCC096F5088CC, -103, -12⟩,
  ⟨0xD1B71758E219652C, -77, -4⟩,
  ⟨0x9C40000000000000, -50, 4⟩,
  ⟨0xE8D4A51000000000, -24, 12⟩,
  ⟨0xAD78EBC5AC620000, 3, 20⟩,
  ⟨0x813F3978F8940984, 30, 28⟩,
  ⟨0xC097CE7BC90715B3, 56, 36⟩,
  ⟨0x8F7E32CE7BEA5C70, 83, 44⟩,
  ⟨0xD5D238A4ABE98068, 109, 52⟩,
  ⟨0x9F4F2726179A2245, 136, 60⟩,
  ⟨0xED63A231D4C4FB27, 162, 68⟩,
  ⟨0xB0DE65388CC8ADA8, 189, 76⟩,
  ⟨0x83C7088E1AAB65DB, 216, 84⟩,
  ⟨0xC45D1DF942711D9A, 242, 92⟩,
  ⟨0x924D692CA61BE758, 269, 100⟩,
  ⟨0xDA01EE641A708DEA, 295, 108⟩,
  ⟨0xA26DA3999AEF774A, 322, 116⟩,
  ⟨0xF209787BB47D6B85, 348, 124⟩,
  ⟨0xB454E4A179DD1877, 375, 132⟩,
  ⟨0x865B86925B9BC5C2, 402, 140⟩,
  ⟨0xC83553C5C8965D3D, 428, 148⟩,
  ⟨0x952AB45CFA97A0B3, 455, 156⟩,
  ⟨0xDE469FBD99A05FE3, 481, 164⟩,
  ⟨0xA59BC234DB398C25, 508, 172⟩,
  ⟨0xF6C69A72A3989F5C, 534, 180⟩,
  ⟨0xB7DCBF5354E9BECE, 561, 188⟩,
  ⟨0x88FCF317F22241E2, 588, 196⟩,
  ⟨0xCC20CE9BD35C78A5, 614, 204⟩,
  ⟨0x98165AF37B2153DF, 641, 212⟩,
  ⟨0xE2A0B5DC971F303A, 667, 220⟩,
  ⟨0xA8D9D1535CE3B396, 694, 228⟩,
  ⟨0xFB9B7CD9A4A7443C, 720, 236⟩,
  ⟨0xBB764C4CA7A44410, 747, 244⟩,
  ⟨0x8BAB8EEFB6409C1A, 774, 252⟩,
  ⟨0xD01FEF10A657842C, 800, 260⟩,
  ⟨0x9B10A4E5E9913129, 827, 268⟩,
  ⟨0xE7109BFBA19C0C9D, 853, 276⟩,
  ⟨0xAC2820D9623BF429, 880, 284⟩,
  ⟨0x80444B5E7AA7CF85, 907, 292⟩,
  ⟨0xBF21E44003ACDD2D, 933, 300⟩,
  ⟨0x8E679C2F5E44FF8F, 960, 308⟩,
  ⟨0xD433179D9C8CB841, 986, 316⟩,
  ⟨0x9E19DB92B4E31BA9, 1013, 324⟩]

/-- `get_cached_power_for_binary_exponent`. -/
def getCachedPowerForBinaryExponent (e : Int) : Except DumpFault CachedPower :=
  if -1500 ≤ e ∧ e ≤ 1500 then
    let f := kAlpha - e - 1
    let k := (f * 78913).tdiv (2 ^ 18) + if 0 < f then 1 else 0
    let index := (-kCachedPowersMinDecExp + k + (kCachedPowersDecStep - 1)).tdiv
      kCachedPowersDecStep
    if index < 0 then .error .assertion
    else
      match kCachedPowers[index.toNat]? with
      | none => .error .assertion
      | some cached =>
          if kAlpha ≤ cached.e + e + 64 ∧ cached.e + e + 64 ≤ kGamma then return cached
          else .error .assertion
  else .error .assertion

/-! ## Generating the digits -/

/-- `find_largest_pow10`: the digits of `n`, and the value of the first of them. -/
def findLargestPow10 (n : Nat) : Nat × Nat :=
  if 1000000000 ≤ n then (10, 1000000000)
  else if 100000000 ≤ n then (9, 100000000)
  else if 10000000 ≤ n then (8, 10000000)
  else if 1000000 ≤ n then (7, 1000000)
  else if 100000 ≤ n then (6, 100000)
  else if 10000 ≤ n then (5, 10000)
  else if 1000 ≤ n then (4, 1000)
  else if 100 ≤ n then (3, 100)
  else if 10 ≤ n then (2, 10)
  else (1, 1)

/-- Does the last digit less one bring the number closer to `w`? -/
def Closer (dist delta ten_k rest : Nat) : Prop :=
  rest < dist ∧ ten_k ≤ delta - rest ∧
    (rest + ten_k < dist ∨ rest + ten_k - dist < dist - rest)

instance (dist delta ten_k rest : Nat) : Decidable (Closer dist delta ten_k rest) := by
  unfold Closer; infer_instance

/-- The loop of `grisu2_round`, on the last digit.  The assertion is that it is not
zero. -/
def roundLoop (dist delta ten_k : Nat) : (digit rest : Nat) → Except DumpFault Nat
  | 0, rest => if Closer dist delta ten_k rest then .error .assertion else return 0
  | digit + 1, rest =>
      if Closer dist delta ten_k rest then roundLoop dist delta ten_k digit (rest + ten_k)
      else return digit + 1

/-- `grisu2_round`. -/
def grisu2Round (buf : List Nat) (dist delta rest ten_k : Nat) : Except DumpFault (List Nat) :=
  match buf.getLast? with
  | none => .error .assertion
  | some digit =>
      if dist ≤ delta ∧ rest ≤ delta ∧ 0 < ten_k then do
        let digit ← roundLoop dist delta ten_k digit rest
        return buf.dropLast ++ [digit]
      else .error .assertion

section Loops

variable (one : Nat) (decimal_exponent : Int)

/-- The second loop of `grisu2_digit_gen`: the digits behind the point, of which there
have been `m`.  There is room for `free` more. -/
def fractionLoop (free m p2 delta dist : Nat) (buffer : List Nat) :
    Except DumpFault (List Nat × Int) :=
  if (2 ^ 64 - 1) / 10 < p2 then .error .assertion
  else
    let p2 := uint64 (p2 * 10)
    let d := p2 / one
    let r := p2 % one
    if 9 < d then .error .assertion
    else
      match free with
      | 0 => .error .outOfBounds
      | free + 1 =>
          let buffer := buffer ++ [d]
          let delta := uint64 (delta * 10)
          let dist := uint64 (dist * 10)
          if r ≤ delta then do
            let buffer ← grisu2Round buffer dist delta r one
            return (buffer, decimal_exponent - (m + 1 : Nat))
          else fractionLoop free (m + 1) r delta dist buffer

/-- The first loop, over the `n` digits left of the integral part `p1`, and what follows
it. -/
def integralLoop (room p2 delta dist : Nat) : (n p1 pow10 : Nat) → List Nat →
    Except DumpFault (List Nat × Int)
  | 0, _, _, buffer =>
      if delta < p2 then
        fractionLoop one decimal_exponent (room - buffer.length) 0 p2 delta dist buffer
      else .error .assertion
  | n + 1, p1, pow10, buffer =>
      let d := p1 / pow10
      let r := p1 % pow10
      if 9 < d then .error .assertion
      else if room ≤ buffer.length then .error .outOfBounds
      else
        let buffer := buffer ++ [d]
        let rest := uint64 (r * one + p2)
        if rest ≤ delta then do
          let buffer ← grisu2Round buffer dist delta rest (uint64 (pow10 * one))
          return (buffer, decimal_exponent + n)
        else integralLoop room p2 delta dist n r (pow10 / 10) buffer

end Loops

/-- `grisu2_digit_gen`. -/
def grisu2DigitGen (room : Nat) (decimal_exponent : Int) (M_minus w M_plus : Diyfp) :
    Except DumpFault (List Nat × Int) :=
  if kAlpha ≤ M_plus.e ∧ M_plus.e ≤ kGamma then do
    let delta ← M_plus.sub M_minus
    let dist ← M_plus.sub w
    let one := 2 ^ (-M_plus.e).toNat
    let p1 := uint32 (M_plus.f / one)
    let p2 := M_plus.f % one
    if 0 < p1 then
      let (k, pow10) := findLargestPow10 p1
      integralLoop one decimal_exponent room p2 delta.f dist.f k p1 pow10 []
    else .error .assertion
  else .error .assertion

/-- `grisu2` from the boundaries on. -/
def grisu2Scaled (room : Nat) (m_minus v m_plus : Diyfp) :
    Except DumpFault (List Nat × Int) :=
  if m_plus.e = m_minus.e ∧ m_plus.e = v.e then do
    let cached ← getCachedPowerForBinaryExponent m_plus.e
    let c_minus_k : Diyfp := ⟨cached.f, cached.e⟩
    let w := v.mul c_minus_k
    let w_minus := m_minus.mul c_minus_k
    let w_plus := m_plus.mul c_minus_k
    -- one less on either side makes up for the rounding
    let M_minus : Diyfp := ⟨uint64 (w_minus.f + 1), w_minus.e⟩
    let M_plus : Diyfp := ⟨uint64 (w_plus.f + (2 ^ 64 - 1)), w_plus.e⟩
    grisu2DigitGen room (-cached.k) M_minus w M_plus
  else .error .assertion

/-- `grisu2`: the digits, and the power of ten they are multiplied by. -/
def grisu2 (room : Nat) (value : Double) : Except DumpFault (List Nat × Int) :=
  if Positive value then do
    let w ← computeBoundaries value
    grisu2Scaled room w.minus w.w w.plus
  else .error .assertion

end DtoaImpl
