import BlockstreamStation.DecimalDigits
import BlockstreamStation.GrisuScaling

/-!
# The digits Grisu2 generates

No assertion of `grisu2` fails for a positive double, and it generates between one and
17 digits, in any buffer that has room for them.  They spell a number strictly between
the boundaries half way to the neighbours of the double.

* `grisu2Round_eq` — the last digit is rounded, and does not become zero;
* `fractionLoop_eq`, `integralLoop_eq` — the loops, which are in time;
* `between_of_reached` — what the digits spell is between the boundaries;
* `grisu2_eq` — all of it.
-/

namespace DtoaImpl

open DecimalDigits Doubles JsonText

/-! ## The last digit -/

/-- **The last digit** is made smaller while that brings the number closer, and never
becomes zero: what is left would be more than `delta`. -/
theorem roundLoop_eq {dist delta ten_k digit rest : Nat} (hrest : rest ≤ delta)
    (hlast : delta < digit * ten_k + rest) :
    ∃ last left, roundLoop dist delta ten_k digit rest = .ok last ∧ 0 < last ∧ last ≤ digit ∧
      last * ten_k + left = digit * ten_k + rest ∧ left ≤ delta := by
  induction digit generalizing rest with
  | zero => omega
  | succ digit ih =>
      rw [roundLoop]
      split_ifs with hcloser
      · obtain ⟨-, hle, -⟩ := hcloser
        have hstep : digit * ten_k + (rest + ten_k) = (digit + 1) * ten_k + rest := by ring
        obtain ⟨last, left, hround, hpos, hdigit, hvalue, hwithin⟩ :=
          ih (by omega : rest + ten_k ≤ delta) (by omega)
        exact ⟨last, left, hround, hpos, Nat.le_succ_of_le hdigit, by omega, hwithin⟩
      · exact ⟨digit + 1, rest, rfl, Nat.succ_pos _, Nat.le_refl _, rfl, hrest⟩

/-- The digit that leaves at most `delta` is rounded. -/
theorem grisu2Round_eq {M delta dist unit rest : Nat} {buffer : List Nat}
    (h : Pending M delta (10 * unit) rest buffer) (hdist : dist ≤ delta)
    (hwithin : rest % unit ≤ delta) :
    ∃ last left, grisu2Round (buffer ++ [rest / unit]) dist delta (rest % unit) unit =
        .ok (buffer ++ [last]) ∧
      Reached M delta unit left (buffer ++ [last]) := by
  have hunit : 0 < unit := by
    have hpos := Nat.zero_lt_of_lt h.below
    omega
  have hrest : rest / unit * unit + rest % unit = rest := Nat.div_add_mod' rest unit
  obtain ⟨last, left, hround, hpos, hle, hvalue, hleft⟩ :=
    @roundLoop_eq dist _ _ _ _ hwithin (by rw [hrest]; exact h.above)
  refine ⟨last, left, ?_, .of_pending h hpos hle (by rw [hvalue, hrest]) hleft⟩
  rw [grisu2Round, List.getLast?_concat, List.dropLast_concat]
  simp only
  rw [if_pos ⟨hdist, hwithin, hunit⟩, hround]
  rfl

/-! ## The loops -/

/-- **The digits behind the point**: after at most 17 of them no more than `delta` is
left. -/
theorem fractionLoop_eq (decimal_exponent : Int) {free : Nat} (m : Nat)
    {one M delta dist p2 : Nat} {buffer : List Nat} (h : Pending M delta one p2 buffer)
    (hone : one ≤ 2 ^ 60) (hdist : dist ≤ delta) (hfine : M ≤ 10 ^ 16 * delta)
    (hroom : 17 ≤ buffer.length + free) :
    ∃ k left digits, fractionLoop one decimal_exponent free m p2 delta dist buffer =
        .ok (digits, decimal_exponent - (m + k : Nat)) ∧
      Reached (10 ^ k * M) (10 ^ k * delta) one left digits ∧
      digits.length = buffer.length + k ∧ digits.length ≤ 17 := by
  -- one round takes ten times the number and ten times `delta`, and the room for one digit
  induction free generalizing M delta dist p2 m buffer with
  | zero =>
      have hlength := h.length_lt hfine
      omega
  | succ free ih =>
      have hbelow := h.below
      have habove := h.above
      have hlength := h.length_lt hfine
      have hone_pos := Nat.zero_lt_of_lt hbelow
      have hgrown := h.grow
      rw [fractionLoop]
      rw [if_neg (by omega)]
      dsimp only
      rw [uint64_eq (by omega), uint64_eq (by omega), uint64_eq (by omega), Nat.mul_comm p2,
        Nat.mul_comm delta, Nat.mul_comm dist, if_neg (Nat.not_lt.mpr hgrown.digit_le_nine)]
      split_ifs with hwithin
      · obtain ⟨last, left, hround, hreached⟩ :=
          grisu2Round_eq hgrown (Nat.mul_le_mul_left 10 hdist) hwithin
        refine ⟨1, left, buffer ++ [last], ?_, ?_, by simp, by simp; omega⟩
        · rw [hround]
          rfl
        · rw [pow_one]
          exact hreached
      · have hnext := hgrown.next hone_pos (Nat.not_le.mp hwithin)
        obtain ⟨k, left, digits, hloop, hreached, hdigits, hle⟩ :=
          ih (m + 1) hnext (Nat.mul_le_mul_left 10 hdist)
            (by rw [Nat.mul_left_comm]; exact Nat.mul_le_mul_left 10 hfine)
            (by rw [List.length_append, List.length_singleton]; omega)
        rw [List.length_append, List.length_singleton] at hdigits
        refine ⟨k + 1, left, digits, ?_, ?_, by omega, hle⟩
        · rw [hloop]
          congr 3
          omega
        · rw [pow_succ, Nat.mul_assoc, Nat.mul_assoc]
          exact hreached

/-- A place of the integral part in front of the fraction. -/
theorem div_place {p1 p2 one n : Nat} (hp2 : p2 < one) :
    (p1 * one + p2) / (10 ^ n * one) = p1 / 10 ^ n := by
  rw [Nat.mul_comm (10 ^ n), ← Nat.div_div_eq_div_mul, Nat.mul_comm p1,
    Nat.mul_add_div (Nat.zero_lt_of_lt hp2), Nat.div_eq_of_lt hp2, Nat.add_zero]

/-- What the places behind it leave. -/
theorem mod_place {p1 p2 one n : Nat} (hp2 : p2 < one) :
    (p1 * one + p2) % (10 ^ n * one) = p1 % 10 ^ n * one + p2 := by
  have hdiv := Nat.div_add_mod (p1 * one + p2) (10 ^ n * one)
  rw [div_place hp2] at hdiv
  have hp1 : p1 * one = (10 ^ n * (p1 / 10 ^ n) + p1 % 10 ^ n) * one := by
    rw [Nat.div_add_mod]
  have hsplit : (10 ^ n * (p1 / 10 ^ n) + p1 % 10 ^ n) * one =
      10 ^ n * one * (p1 / 10 ^ n) + p1 % 10 ^ n * one := by ring
  omega

/-- **The digits of the integral part**, and those behind the point where it takes
them. -/
theorem integralLoop_eq (decimal_exponent : Int) {one M delta dist p2 n p1 pow10 room : Nat}
    {buffer : List Nat} (h : Pending M delta (10 ^ n * one) (p1 * one + p2) buffer)
    (hp2 : p2 < one) (hone : one ≤ 2 ^ 60) (hpow10 : pow10 = 10 ^ n / 10)
    (hdist : dist ≤ delta) (hM : M < 2 ^ 64) (hfine : M ≤ 10 ^ 16 * delta)
    (hroom : 17 ≤ room) :
    ∃ (up down left : Nat) (digits : List Nat),
      integralLoop one decimal_exponent room p2 delta dist n p1 pow10 buffer =
        .ok (digits, decimal_exponent + up - down) ∧
      Reached (10 ^ down * M) (10 ^ down * delta) (10 ^ up * one) left digits ∧
      digits.length ≤ 17 ∧ up ≤ n ∧ down ≤ 17 := by
  -- `n` places are still to come, and the next digit is taken off the whole number
  induction n generalizing p1 pow10 buffer with
  | zero =>
      have hbelow := h.below
      have hp1 : p1 = 0 := by
        rw [pow_zero, Nat.one_mul] at hbelow
        by_contra hne
        have hle := Nat.le_mul_of_pos_left one (Nat.pos_of_ne_zero hne)
        omega
      subst hp1
      rw [pow_zero, Nat.one_mul, Nat.zero_mul, Nat.zero_add] at h
      have hlength := h.length_lt hfine
      obtain ⟨k, left, digits, hloop, hreached, hdigits, hle⟩ :=
        fractionLoop_eq decimal_exponent 0 h hone hdist hfine
          (by omega : 17 ≤ buffer.length + (room - buffer.length))
      refine ⟨0, k, left, digits, ?_, ?_, hle, Nat.le_refl _, by omega⟩
      · rw [integralLoop, if_pos h.above, hloop, Nat.zero_add, Nat.cast_zero, add_zero]
      · rw [pow_zero, Nat.one_mul]
        exact hreached
  | succ n ih =>
      have hunit : 10 ^ (n + 1) * one = 10 * (10 ^ n * one) := by rw [pow_succ]; ring
      rw [hunit] at h
      have hlength := h.length_lt hfine
      have hpos : 0 < 10 ^ n * one := Nat.mul_pos (by positivity) (Nat.zero_lt_of_lt hp2)
      have hpow : pow10 = 10 ^ n := by rw [hpow10, pow_succ, Nat.mul_div_cancel _ (by decide)]
      have hdigit := h.digit_le_nine
      have hwhole := h.next_value
      have hscale := h.scale
      rw [div_place hp2] at hdigit
      rw [mod_place hp2] at hwhole
      have hrest : p1 % 10 ^ n * one + p2 < 2 ^ 64 :=
        Nat.lt_of_le_of_lt (Nat.le.intro (by rw [Nat.add_comm]; exact hwhole)) hM
      have hten : 10 ^ n * one < 2 ^ 64 := by
        have hone_le : 10 * (10 ^ n * one) ≤ 10 * (10 ^ n * one) * 10 ^ buffer.length :=
          Nat.le_mul_of_pos_right _ (by positivity)
        omega
      rw [integralLoop]
      dsimp only
      rw [hpow, if_neg (Nat.not_lt.mpr hdigit), if_neg (by omega), uint64_eq hrest,
        uint64_eq hten]
      -- either the digits are within `delta` here, or one more place is taken
      split_ifs with hwithin
      · rw [← mod_place hp2] at hwithin
        obtain ⟨last, left, hround, hreached⟩ := grisu2Round_eq h hdist hwithin
        rw [div_place hp2, mod_place hp2] at hround
        refine ⟨n, 0, left, buffer ++ [last], ?_, ?_, ?_, Nat.le_succ n, Nat.zero_le _⟩
        · rw [hround, Nat.cast_zero, sub_zero]
          rfl
        · rw [pow_zero, Nat.one_mul, Nat.one_mul]
          exact hreached
        · rw [List.length_append, List.length_singleton]
          omega
      · rw [← mod_place hp2] at hwithin
        have hnext := h.next hpos (Nat.not_le.mp hwithin)
        rw [div_place hp2, mod_place hp2] at hnext
        obtain ⟨up, down, left, digits, hloop, hreached, hle, hup, hdown⟩ := ih hnext rfl
        exact ⟨up, down, left, digits, hloop, hreached, hle, Nat.le_succ_of_le hup, hdown⟩

/-! ## From the boundaries to the digits -/

/-- The digits of a number that is not zero, and the value of the first. -/
theorem findLargestPow10_eq {n : Nat} (hpos : 0 < n) (hn : n < 2 ^ 32) :
    ∃ j, j ≤ 9 ∧ findLargestPow10 n = (j + 1, 10 ^ j) ∧ 10 ^ j ≤ n ∧ n < 10 ^ (j + 1) := by
  unfold findLargestPow10
  split_ifs
  · exact ⟨9, by decide, rfl, by omega, by omega⟩
  · exact ⟨8, by decide, rfl, by omega, by omega⟩
  · exact ⟨7, by decide, rfl, by omega, by omega⟩
  · exact ⟨6, by decide, rfl, by omega, by omega⟩
  · exact ⟨5, by decide, rfl, by omega, by omega⟩
  · exact ⟨4, by decide, rfl, by omega, by omega⟩
  · exact ⟨3, by decide, rfl, by omega, by omega⟩
  · exact ⟨2, by decide, rfl, by omega, by omega⟩
  · exact ⟨1, by decide, rfl, by omega, by omega⟩
  · exact ⟨0, by decide, rfl, by omega, by omega⟩

/-- The unit of the integral part, for an exponent in the range. -/
theorem one_range {e : Int} (hlow : kAlpha ≤ e) (hhigh : e ≤ kGamma) :
    2 ^ 32 ≤ 2 ^ (-e).toNat ∧ 2 ^ (-e).toNat ≤ 2 ^ 60 := by
  unfold kAlpha at hlow
  unfold kGamma at hhigh
  exact ⟨Nat.pow_le_pow_right (by decide) (by omega), Nat.pow_le_pow_right (by decide) (by omega)⟩

/-- Before the first digit of a number whose integral part has `j + 1` digits. -/
theorem pending_first {M delta one j : Nat} (hone : 0 < one) (habove : delta < M)
    (hlow : 10 ^ j ≤ M / one) (hhigh : M / one < 10 ^ (j + 1)) :
    Pending M delta (10 ^ (j + 1) * one) (M / one * one + M % one) [] := by
  have hwhole : M / one * one + M % one = M := Nat.div_add_mod' M one
  have hmod : M % one < one := Nat.mod_lt M hone
  rw [hwhole]
  refine pending_nil ?_ habove ?_
  · have hle : (M / one + 1) * one ≤ 10 ^ (j + 1) * one := Nat.mul_le_mul_right one hhigh
    rw [Nat.add_mul, Nat.one_mul] at hle
    omega
  · have hle : 10 ^ j * one ≤ M / one * one := Nat.mul_le_mul_right one hlow
    rw [pow_succ, Nat.mul_comm _ 10, Nat.mul_assoc]
    omega

/-- The integral part is not zero and has 32 bits. -/
theorem integral_range {M one : Nat} (hlow : 2 ^ 61 ≤ M) (hhigh : M < 2 ^ 64)
    (hone : 2 ^ 32 ≤ one) (hone' : one ≤ 2 ^ 60) : 0 < M / one ∧ M / one < 2 ^ 32 := by
  refine ⟨Nat.div_pos (by omega) (by omega), Nat.div_lt_of_lt_mul ?_⟩
  calc M < 2 ^ 32 * 2 ^ 32 := hhigh
    _ ≤ one * 2 ^ 32 := Nat.mul_le_mul_right _ hone

/-- **The digits of the upper boundary**, until at most what is between the boundaries is
left. -/
theorem grisu2DigitGen_eq {room : Nat} {decimal_exponent : Int} {M_minus w M_plus : Diyfp}
    (h : Ready M_minus w M_plus) (hroom : 17 ≤ room) :
    ∃ (up down left : Nat) (digits : List Nat),
      grisu2DigitGen room decimal_exponent M_minus w M_plus =
        .ok (digits, decimal_exponent + up - down) ∧
      Reached (10 ^ down * M_plus.f) (10 ^ down * (M_plus.f - M_minus.f))
        (10 ^ up * 2 ^ (-M_plus.e).toNat) left digits ∧
      digits.length ≤ 17 ∧ up ≤ 10 ∧ down ≤ 17 := by
  obtain ⟨hone_low, hone_high⟩ := one_range h.alpha h.gamma
  have hsub : M_plus.sub M_minus = .ok ⟨M_plus.f - M_minus.f, M_plus.e⟩ :=
    if_pos ⟨h.minus_e, Nat.le_trans h.minus_le h.w_le⟩
  have hdist : M_plus.sub w = .ok ⟨M_plus.f - w.f, M_plus.e⟩ := if_pos ⟨h.w_e, h.w_le⟩
  have hw : M_plus.f - w.f ≤ M_plus.f - M_minus.f := Nat.sub_le_sub_left h.minus_le _
  unfold grisu2DigitGen
  rw [if_pos ⟨h.alpha, h.gamma⟩, hsub, hdist]
  dsimp only [bind, Except.bind]
  generalize 2 ^ (-M_plus.e).toNat = one at hone_low hone_high ⊢
  obtain ⟨hp1, hp1_lt⟩ := integral_range h.low h.high hone_low hone_high
  have hone : 0 < one := Nat.lt_of_lt_of_le (by decide) hone_low
  have huint : uint32 (M_plus.f / one) = M_plus.f / one := Nat.mod_eq_of_lt hp1_lt
  obtain ⟨j, hj, hpow10, hj_le, hj_lt⟩ := findLargestPow10_eq hp1 hp1_lt
  have hpending := pending_first hone (Nat.sub_lt (Nat.lt_of_lt_of_le (by decide) h.low)
    h.minus_pos) hj_le hj_lt
  have hten : 10 ^ j = 10 ^ (j + 1) / 10 := by
    rw [pow_succ, Nat.mul_div_cancel _ (by decide)]
  obtain ⟨up, down, left, digits, hloop, hreached, hlength, hup, hdown⟩ :=
    integralLoop_eq decimal_exponent hpending (Nat.mod_lt _ hone) hone_high hten hw h.high h.fine
      hroom
  rw [huint, if_pos hp1, hpow10]
  exact ⟨up, down, left, digits, hloop, hreached, hlength, by omega, hdown⟩

/-! ## The digits of a double -/

/-- What `grisu2` generates: between one and 17 digits, the first of them not zero, with
an exponent of at most three digits, for a number strictly between the boundaries. -/
structure Represents (value : Double) (digits : List Nat) (decimal_exponent : Int) : Prop where
  significant : Significant digits
  ne_nil : digits ≠ []
  length_le : digits.length ≤ 17
  low : -400 ≤ decimal_exponent
  high : decimal_exponent ≤ 400
  above : (mMinus value).value < decimalValue digits * 10 ^ decimal_exponent
  below : decimalValue digits * 10 ^ decimal_exponent < (mPlus value).value

/-- The number between the scaled boundaries that digits spell. -/
theorem reached_value {M M' up down left one : Nat} {digits : List Nat} {k : Int}
    (h : Reached (10 ^ down * M) (10 ^ down * (M - M')) (10 ^ up * one) left digits)
    (hle : M' ≤ M) :
    (M' : ℚ) ≤ decimalValue digits * 10 ^ (-k + up - down) * 10 ^ k * one ∧
      decimalValue digits * 10 ^ (-k + up - down) * 10 ^ k * one ≤ (M : ℚ) := by
  have hpow : (10 : ℚ) ^ (-k + up - down) * 10 ^ k = 10 ^ up / 10 ^ down := by
    rw [← zpow_add₀ (by norm_num), eq_div_iff (by positivity), ← zpow_natCast, ← zpow_natCast,
      ← zpow_add₀ (by norm_num)]
    congr 1
    omega
  have hdown : (0 : ℚ) < 10 ^ down := by positivity
  have hvalue : (decimalValue digits : ℚ) * (10 ^ up * one) + left = 10 ^ down * M := by
    exact_mod_cast h.value
  have hwithin : (left : ℚ) ≤ 10 ^ down * (M - M') := by
    have hleft : (left : ℚ) ≤ ((10 ^ down * (M - M') : Nat) : ℚ) := Nat.cast_le.mpr h.within
    rwa [Nat.cast_mul, Nat.cast_sub hle, Nat.cast_pow] at hleft
  have hleft : (0 : ℚ) ≤ left := Nat.cast_nonneg left
  have heq : (decimalValue digits : ℚ) * 10 ^ (-k + up - down) * 10 ^ k * one =
      decimalValue digits * (10 ^ up * one) / 10 ^ down := by
    rw [mul_assoc _ ((10 : ℚ) ^ (-k + (up : ℤ) - down)), hpow]
    ring
  rw [heq]
  constructor
  · rw [le_div_iff₀ hdown]
    linarith
  · rw [div_le_iff₀ hdown]
    linarith

/-- **Scaling and digits**: from boundaries that are ready when scaled. -/
theorem grisu2Scaled_eq {cached : CachedPower} {e : Int} {a_minus a a_plus room : Nat}
    (hlookup : getCachedPowerForBinaryExponent e = .ok cached) (hscales : Scales cached e)
    (hready : Ready ⟨scaled cached a_minus + 1, cached.e + e + 64⟩
      ⟨scaled cached a, cached.e + e + 64⟩ ⟨scaled cached a_plus - 1, cached.e + e + 64⟩)
    (hminus : a_minus ≤ a) (hplus : a ≤ a_plus) (hlt : a_plus < 2 ^ 64) (hroom : 17 ≤ room) :
    ∃ (up down left : Nat) (digits : List Nat),
      grisu2Scaled room ⟨a_minus, e⟩ ⟨a, e⟩ ⟨a_plus, e⟩ =
        .ok (digits, -cached.k + up - down) ∧
      Reached (10 ^ down * (scaled cached a_plus - 1))
        (10 ^ down * (scaled cached a_plus - 1 - (scaled cached a_minus + 1)))
        (10 ^ up * 2 ^ (-(cached.e + e + 64)).toNat) left digits ∧
      digits.length ≤ 17 ∧ up ≤ 10 ∧ down ≤ 17 := by
  have hM_minus : uint64 (scaled cached a_minus + 1) = scaled cached a_minus + 1 :=
    uint64_eq (Nat.lt_of_le_of_lt (Nat.le_trans hready.minus_le hready.w_le) hready.high)
  have hM_plus : uint64 (scaled cached a_plus + (2 ^ 64 - 1)) = scaled cached a_plus - 1 := by
    have hlow := hready.low
    have hhigh := hready.high
    dsimp only at hlow hhigh
    unfold uint64
    omega
  unfold grisu2Scaled
  rw [if_pos ⟨rfl, rfl⟩, hlookup]
  dsimp only [bind, Except.bind]
  rw [mul_cached hscales (by omega), mul_cached hscales (by omega), mul_cached hscales hlt]
  dsimp only
  rw [hM_minus, hM_plus]
  exact grisu2DigitGen_eq hready hroom

/-- The digits reached spell a number between the boundaries that were scaled. -/
theorem between_of_reached {cached : CachedPower} (h : Rounded cached) {e : Int}
    {a_minus a_plus up down left : Nat} {digits : List Nat} (hminus : a_minus < 2 ^ 64)
    (hplus : a_plus < 2 ^ 64) (he : cached.e + e + 64 ≤ 0)
    (hle : scaled cached a_minus + 1 ≤ scaled cached a_plus - 1)
    (hreached : Reached (10 ^ down * (scaled cached a_plus - 1))
      (10 ^ down * (scaled cached a_plus - 1 - (scaled cached a_minus + 1)))
      (10 ^ up * 2 ^ (-(cached.e + e + 64)).toNat) left digits) :
    (a_minus : ℚ) * 2 ^ e < decimalValue digits * 10 ^ (-cached.k + up - down) ∧
      decimalValue digits * 10 ^ (-cached.k + up - down) < (a_plus : ℚ) * 2 ^ e := by
  obtain ⟨hlow, hhigh⟩ := reached_value (k := cached.k) hreached hle
  have hone : (((2 : Nat) ^ (-(cached.e + e + 64)).toNat : Nat) : ℚ) *
      2 ^ (cached.e + e + 64) = 1 := by
    rw [Nat.cast_pow, Nat.cast_ofNat, ← zpow_natCast, Int.toNat_of_nonneg (by omega),
      ← zpow_add₀ (by norm_num), neg_add_cancel, zpow_zero]
  have hpos : (0 : ℚ) < 2 ^ (cached.e + e + 64) := by positivity
  have hten : (0 : ℚ) < 10 ^ cached.k := by positivity
  have hpred : ((scaled cached a_plus - 1 : Nat) : ℚ) = scaled cached a_plus - 1 := by
    rw [Nat.cast_sub (by omega), Nat.cast_one]
  have hlow := mul_le_mul_of_nonneg_right hlow hpos.le
  have hhigh := mul_le_mul_of_nonneg_right hhigh hpos.le
  rw [mul_assoc _ _ ((2 : ℚ) ^ (cached.e + e + 64)), hone, mul_one] at hlow hhigh
  rw [hpred] at hhigh
  constructor
  · exact lt_of_mul_lt_mul_right (lt_of_lt_of_le (lt_scaled h hminus e) hlow) hten.le
  · exact lt_of_mul_lt_mul_right (lt_of_le_of_lt hhigh (scaled_lt h hplus e)) hten.le

/-- **Grisu2 works**: no assertion fails, and the digits it generates for a positive
double spell a number strictly between its boundaries. -/
theorem grisu2_eq {value : Double} (h : Positive value) {room : Nat} (hroom : 17 ≤ room) :
    ∃ digits decimal_exponent, grisu2 room value = .ok (digits, decimal_exponent) ∧
      Represents value digits decimal_exponent := by
  obtain ⟨t, ht, ht', hlow, hhigh, hboundaries⟩ := computeBoundaries_eq h
  obtain ⟨he, he'⟩ := significand_e h
  obtain ⟨hplus, hminus⟩ := value_boundaries value t
  obtain ⟨cached, hlookup, hscales, hrounded⟩ :=
    getCachedPower_eq (e := (significand value).e - (t + 2 : Nat)) (by omega) (by omega)
  have hready := ready_of_scales hscales hlow hhigh (Nat.pow_le_pow_right (by decide) ht)
    (lowerGap_cases ht (by omega))
  obtain ⟨up, down, left, digits, hgrisu, hreached, hlength, hup, hdown⟩ :=
    grisu2Scaled_eq hlookup hscales hready (Nat.sub_le _ _) (Nat.le_add_right _ _) hhigh hroom
  obtain ⟨hc, hc', halpha, hgamma, hk, hk'⟩ := hscales
  obtain ⟨habove, hbelow⟩ := between_of_reached hrounded (by omega) hhigh
    (Int.le_trans hgamma (by decide)) (Nat.le_trans hready.minus_le hready.w_le) hreached
  rw [hminus] at habove
  rw [hplus] at hbelow
  refine ⟨digits, -cached.k + up - down, ?_, hreached.significant, hreached.ne_nil, hlength,
    by omega, by omega, habove, hbelow⟩
  rw [grisu2, if_pos h, hboundaries]
  exact hgrisu

end DtoaImpl
