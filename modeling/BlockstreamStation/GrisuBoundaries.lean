import Mathlib.Algebra.Order.Field.Power
import Mathlib.Tactic.LinearCombination
import BlockstreamStation.Grisu

/-!
# The boundaries of a double

`compute_boundaries` of the vendored `nlohmann::json`, and the arithmetic of `diyfp`
below it: nothing overflows and no assertion fails for a positive double.

* `mul_eq` — the product from halves is the rounded one;
* `computeBoundaries_eq`, `value_boundaries` — the boundaries, normalized;
* `value_mPlus`, `value_mMinus` — they are half way to the neighbours of the double.
-/

namespace DtoaImpl

open Doubles JsonText

/-- Below 64 bits nothing wraps around. -/
theorem uint64_eq {n : Nat} (h : n < 2 ^ 64) : uint64 n = n := Nat.mod_eq_of_lt h

/-! ## Multiplying and normalizing -/

/-- The product of two halves has 64 bits, and room for two more carries. -/
theorem mul_halves_le {a b : Nat} (ha : a < 2 ^ 32) (hb : b < 2 ^ 32) :
    a * b ≤ (2 ^ 32 - 1) * (2 ^ 32 - 1) :=
  Nat.mul_le_mul (Nat.le_pred_of_lt ha) (Nat.le_pred_of_lt hb)

/-- **The product from halves is the rounded one.** -/
theorem mul_eq {x y : Diyfp} (hx : x.f < 2 ^ 64) (hy : y.f < 2 ^ 64) :
    x.mul y = ⟨(x.f * y.f + 2 ^ 63) / 2 ^ 64, y.e + x.e + 64⟩ := by
  have hx_lo : x.f % 2 ^ 32 < 2 ^ 32 := Nat.mod_lt _ (by decide)
  have hy_lo : y.f % 2 ^ 32 < 2 ^ 32 := Nat.mod_lt _ (by decide)
  have hx_hi : x.f / 2 ^ 32 < 2 ^ 32 := Nat.div_lt_of_lt_mul hx
  have hy_hi : y.f / 2 ^ 32 < 2 ^ 32 := Nat.div_lt_of_lt_mul hy
  have h0 := mul_halves_le hx_lo hy_lo
  have h1 := mul_halves_le hx_lo hy_hi
  have h2 := mul_halves_le hx_hi hy_lo
  have h3 := mul_halves_le hx_hi hy_hi
  have hproduct : x.f * y.f = x.f % 2 ^ 32 * (y.f % 2 ^ 32) +
      2 ^ 32 * (x.f % 2 ^ 32 * (y.f / 2 ^ 32) + x.f / 2 ^ 32 * (y.f % 2 ^ 32)) +
      2 ^ 64 * (x.f / 2 ^ 32 * (y.f / 2 ^ 32)) := by
    calc x.f * y.f
        = (2 ^ 32 * (x.f / 2 ^ 32) + x.f % 2 ^ 32) * (2 ^ 32 * (y.f / 2 ^ 32) + y.f % 2 ^ 32) := by
          rw [Nat.div_add_mod, Nat.div_add_mod]
      _ = _ := by ring
  unfold Diyfp.mul
  rw [Diyfp.mk.injEq, hproduct]
  generalize x.f % 2 ^ 32 * (y.f % 2 ^ 32) = p0 at h0 ⊢
  generalize x.f % 2 ^ 32 * (y.f / 2 ^ 32) = p1 at h1 ⊢
  generalize x.f / 2 ^ 32 * (y.f % 2 ^ 32) = p2 at h2 ⊢
  generalize x.f / 2 ^ 32 * (y.f / 2 ^ 32) = p3 at h3 ⊢
  unfold uint64
  omega

/-- So many shifts normalize a number as it takes to fill 64 bits. -/
theorem normalizeLoop_eq {shifts s : Nat} {x : Diyfp} (hs : s ≤ shifts)
    (hlow : 2 ^ 63 ≤ x.f * 2 ^ s) (hhigh : x.f * 2 ^ s < 2 ^ 64) :
    normalizeLoop shifts x = ⟨x.f * 2 ^ s, x.e - s⟩ := by
  induction s generalizing shifts x with
  | zero =>
      rw [pow_zero, Nat.mul_one] at hlow ⊢
      rw [Nat.cast_zero, sub_zero]
      cases shifts with
      | zero => rfl
      | succ shifts => exact if_neg (Nat.ne_of_gt (Nat.div_pos hlow (by decide)))
  | succ s ih =>
      obtain ⟨shifts, rfl⟩ := Nat.exists_eq_add_of_lt hs
      have hpow : 1 ≤ 2 ^ s := Nat.one_le_two_pow
      have hdouble : x.f * 2 * 2 ^ s = x.f * 2 ^ (s + 1) := by rw [pow_succ]; ring
      have hlt : x.f * 2 < 2 ^ 64 := by
        refine Nat.lt_of_le_of_lt ?_ hhigh
        rw [← hdouble]
        exact Nat.le_mul_of_pos_right _ hpow
      change (if x.f / 2 ^ 63 = 0 then _ else _) = _
      rw [if_pos (by omega), uint64_eq hlt,
        ih (x := ⟨x.f * 2, x.e - 1⟩) (by omega) (by rw [hdouble]; exact hlow)
          (by rw [hdouble]; exact hhigh), hdouble, Nat.cast_succ]
      congr 1
      ring

/-- A number that is not zero is normalized. -/
theorem normalize_eq {x : Diyfp} {s : Nat} (hs : s ≤ 63) (hlow : 2 ^ 63 ≤ x.f * 2 ^ s)
    (hhigh : x.f * 2 ^ s < 2 ^ 64) : x.normalize = .ok ⟨x.f * 2 ^ s, x.e - s⟩ := by
  have hne : x.f ≠ 0 := by
    intro hzero
    rw [hzero, Nat.zero_mul] at hlow
    exact absurd hlow (by decide)
  rw [Diyfp.normalize, if_pos hne, normalizeLoop_eq hs hlow hhigh]
  rfl

/-- A number is shifted to a smaller exponent, if it has the room. -/
theorem normalizeTo_eq {x : Diyfp} {s : Nat} {target_exponent : Int}
    (htarget : target_exponent = x.e - s) (hhigh : x.f * 2 ^ s < 2 ^ 64) :
    x.normalizeTo target_exponent = .ok ⟨x.f * 2 ^ s, target_exponent⟩ := by
  have hdelta : x.e - target_exponent = s := by omega
  unfold Diyfp.normalizeTo
  dsimp only
  rw [hdelta, Int.toNat_natCast, uint64_eq hhigh,
    if_pos ⟨Int.natCast_nonneg _, Nat.mul_div_cancel _ (by positivity)⟩]
  rfl

/-! ## The boundaries -/

/-- A positive double has a significand of at most 53 bits, and one bit of it is set. -/
theorem significand_range {value : Double} (h : Positive value) :
    0 < (significand value).f ∧ (significand value).f < 2 ^ 53 := by
  have hmod : value.bits.toNat % kHiddenBit < kHiddenBit := Nat.mod_lt _ (by decide)
  have hzero := of_decide_eq_false h.2.1
  unfold Double.exponent Double.fraction at hzero
  unfold significand
  dsimp only
  unfold kHiddenBit at hmod ⊢
  split_ifs with hE
  · dsimp only
    constructor <;> omega
  · dsimp only
    constructor <;> omega

/-- Its exponent is that of a finite double. -/
theorem significand_e {value : Double} (h : Positive value) :
    -1074 ≤ (significand value).e ∧ (significand value).e ≤ 971 := by
  have hfinite := of_decide_eq_true h.1
  have hsign := of_decide_eq_false h.2.2
  unfold Double.exponent at hfinite
  unfold significand kMinExp kBias
  dsimp only
  split_ifs with hE
  · dsimp only
    constructor <;> omega
  · dsimp only
    constructor <;> omega

/-- Where the lower boundary is closer, only the hidden bit is set. -/
theorem significand_of_closer {value : Double} (h : LowerBoundaryIsCloser value) :
    (significand value).f = 2 ^ 52 := by
  obtain ⟨hF, hE⟩ := h
  unfold significand
  dsimp only
  rw [if_neg (Nat.ne_of_gt (Nat.zero_lt_of_lt hE)), hF]
  rfl

/-- Half the distance to the neighbour below, in units that make half the distance to the
one above two. -/
def lowerGap (value : Double) : Nat := if LowerBoundaryIsCloser value then 1 else 2

/-- A significand is shifted to 64 bits, with room for the boundary above it. -/
theorem exists_shift {f : Nat} (hpos : 0 < f) (hbound : f < 2 ^ 53) :
    ∃ t, 9 ≤ t ∧ t ≤ 61 ∧ 2 ^ 63 ≤ f * 2 ^ (t + 2) ∧ (f + 1) * 2 ^ (t + 2) ≤ 2 ^ 64 := by
  have hlog : Nat.log2 f < 53 := (Nat.log2_lt (Nat.ne_of_gt hpos)).mpr hbound
  obtain ⟨t, ht⟩ : ∃ t, t + 2 + Nat.log2 f = 63 := ⟨61 - Nat.log2 f, by omega⟩
  refine ⟨t, by omega, by omega, ?_, ?_⟩
  · calc 2 ^ 63 = 2 ^ Nat.log2 f * 2 ^ (t + 2) := by rw [← pow_add, ← ht, Nat.add_comm]
      _ ≤ f * 2 ^ (t + 2) := Nat.mul_le_mul_right _ (Nat.log2_self_le (Nat.ne_of_gt hpos))
  · calc (f + 1) * 2 ^ (t + 2) ≤ 2 ^ (Nat.log2 f + 1) * 2 ^ (t + 2) :=
          Nat.mul_le_mul_right _ Nat.lt_log2_self
      _ = 2 ^ 64 := by rw [← pow_add]; congr 1; omega

/-- The upper boundary in the exponent of the shifted number. -/
theorem mPlus_shift (value : Double) (t : Nat) :
    (mPlus value).f * 2 ^ (t + 1) = (significand value).f * 2 ^ (t + 2) + 2 * 2 ^ t ∧
      (mPlus value).e - (t + 1 : Nat) = (significand value).e - (t + 2 : Nat) := by
  unfold mPlus
  dsimp only
  refine ⟨?_, by omega⟩
  rw [pow_add, pow_add]
  ring

/-- The lower boundary in that exponent. -/
theorem mMinus_shift (value : Double) (t : Nat) : ∃ s : Nat,
    (mMinus value).f * 2 ^ s =
        (significand value).f * 2 ^ (t + 2) - lowerGap value * 2 ^ t ∧
      (significand value).e - (t + 2 : Nat) = (mMinus value).e - s := by
  unfold mMinus lowerGap
  dsimp only
  split_ifs with hcloser
  · refine ⟨t, ?_, by dsimp only; omega⟩
    rw [Nat.sub_mul, pow_add]
    ring_nf
  · refine ⟨t + 1, ?_, by dsimp only; omega⟩
    rw [Nat.sub_mul, pow_add, pow_add]
    ring_nf

/-- **The boundaries, normalized**: the number shifted up, and the boundaries around it
in its own exponent. -/
theorem computeBoundaries_eq {value : Double} (h : Positive value) :
    ∃ t, 9 ≤ t ∧ t ≤ 61 ∧ 2 ^ 63 ≤ (significand value).f * 2 ^ (t + 2) ∧
      (significand value).f * 2 ^ (t + 2) + 2 * 2 ^ t < 2 ^ 64 ∧
      computeBoundaries value = .ok
        ⟨⟨(significand value).f * 2 ^ (t + 2), (significand value).e - (t + 2 : Nat)⟩,
          ⟨(significand value).f * 2 ^ (t + 2) - lowerGap value * 2 ^ t,
            (significand value).e - (t + 2 : Nat)⟩,
          ⟨(significand value).f * 2 ^ (t + 2) + 2 * 2 ^ t,
            (significand value).e - (t + 2 : Nat)⟩⟩ := by
  obtain ⟨hpos, hbound⟩ := significand_range h
  obtain ⟨t, ht, ht', hlow, hhigh⟩ := exists_shift hpos hbound
  obtain ⟨hf_plus, he_plus⟩ := mPlus_shift value t
  obtain ⟨s, hf_minus, he_minus⟩ := mMinus_shift value t
  have hroom : ((significand value).f + 1) * 2 ^ (t + 2) =
      (significand value).f * 2 ^ (t + 2) + 4 * 2 ^ t := by rw [pow_add]; ring
  have hT : 0 < 2 ^ t := by positivity
  have hplus : (mPlus value).normalize =
      .ok ⟨(mPlus value).f * 2 ^ (t + 1), (mPlus value).e - (t + 1 : Nat)⟩ :=
    normalize_eq (by omega) (by omega) (by omega)
  have hminus : (mMinus value).normalizeTo ((significand value).e - (t + 2 : Nat)) =
      .ok ⟨(mMinus value).f * 2 ^ s, (significand value).e - (t + 2 : Nat)⟩ :=
    normalizeTo_eq he_minus (by omega)
  refine ⟨t, ht, ht', hlow, by omega, ?_⟩
  rw [computeBoundaries, if_pos h, hplus, hf_plus, he_plus]
  dsimp only [bind, Except.bind]
  rw [hminus, hf_minus]
  dsimp only
  rw [normalize_eq (by omega) hlow (by omega)]
  rfl

/-- The gap below a number, against the number. -/
theorem lowerGap_cases {value : Double} {t : Nat} (ht : 9 ≤ t)
    (hhigh : (significand value).f * 2 ^ (t + 2) < 2 ^ 64) :
    lowerGap value = 2 ∧ (significand value).f * 2 ^ (t + 2) ≤ 2 ^ 55 * 2 ^ t ∨
      lowerGap value = 1 ∧ (significand value).f * 2 ^ (t + 2) ≤ 2 ^ 54 * 2 ^ t := by
  have hT : 2 ^ 9 ≤ 2 ^ t := Nat.pow_le_pow_right (by decide) ht
  unfold lowerGap
  split_ifs with hcloser
  · refine .inr ⟨rfl, Nat.le_of_eq ?_⟩
    rw [significand_of_closer hcloser, pow_add]
    ring
  · exact .inl ⟨rfl, by omega⟩

/-- The number itself. -/
def Diyfp.value (x : Diyfp) : ℚ := x.f * 2 ^ x.e

/-- Shifting does not change it. -/
theorem Diyfp.value_shift (x : Diyfp) (s : Nat) :
    ((x.f * 2 ^ s : Nat) : ℚ) * 2 ^ (x.e - s) = x.value := by
  rw [Nat.cast_mul, Nat.cast_pow, Nat.cast_ofNat, mul_assoc, ← zpow_natCast,
    ← zpow_add₀ (by norm_num), add_sub_cancel, value]

/-- The boundaries as they are normalized are those of the number. -/
theorem value_boundaries (value : Double) (t : Nat) :
    (((significand value).f * 2 ^ (t + 2) + 2 * 2 ^ t : Nat) : ℚ) *
        2 ^ ((significand value).e - (t + 2 : Nat)) = (mPlus value).value ∧
      (((significand value).f * 2 ^ (t + 2) - lowerGap value * 2 ^ t : Nat) : ℚ) *
        2 ^ ((significand value).e - (t + 2 : Nat)) = (mMinus value).value := by
  obtain ⟨hf_plus, he_plus⟩ := mPlus_shift value t
  obtain ⟨s, hf_minus, he_minus⟩ := mMinus_shift value t
  constructor
  · rw [← hf_plus, ← he_plus, Diyfp.value_shift]
  · rw [← hf_minus, he_minus, Diyfp.value_shift]

/-! ## Half way to the neighbours -/

/-- A magnitude by its bits: with the hidden bit, or without it. -/
theorem magnitude_eq {x : Double} {E F : Nat} (hbits : x.bits.toNat = E * 2 ^ 52 + F)
    (hE : E < 2 ^ 11) (hF : F < 2 ^ 52) :
    x.magnitude = if E = 0 then (F : ℚ) * 2 ^ kMinExp
      else ((F : ℚ) + 2 ^ 52) * 2 ^ ((E : Int) - kBias) := by
  have hexponent : x.exponent = E := by
    unfold Double.exponent
    omega
  have hfraction : x.fraction = F := by
    unfold Double.fraction
    omega
  have hbias : (2 : ℚ) ^ (-kBias) = ((2 ^ 1075 : Nat) : ℚ)⁻¹ := by
    rw [zpow_neg, Nat.cast_pow, Nat.cast_ofNat]
    exact congrArg _ (zpow_natCast 2 1075)
  unfold Double.magnitude
  rw [hexponent, hfraction, div_eq_mul_inv, div_eq_mul_inv, ← hbias]
  split_ifs with hzero
  · have hmin : kMinExp = 1 + -kBias := rfl
    rw [hmin, zpow_add₀ (by norm_num), zpow_one, Nat.cast_mul, Nat.cast_ofNat,
      mul_assoc]
  · rw [sub_eq_add_neg, zpow_add₀ (by norm_num), zpow_natCast]
    push_cast
    ring

section Neighbours

variable {x : Double}

/-- The fields of a positive double. -/
theorem fields_of_positive (h : Positive x) : ∃ E F : Nat,
    x.bits.toNat = E * 2 ^ 52 + F ∧ E < 2047 ∧ F < 2 ^ 52 ∧ (E = 0 → F ≠ 0) ∧
      significand x = (if E = 0 then ⟨F, kMinExp⟩ else ⟨F + kHiddenBit, E - kBias⟩) ∧
      (LowerBoundaryIsCloser x ↔ F = 0 ∧ 1 < E) := by
  have hzero := of_decide_eq_false h.2.1
  have hfinite := of_decide_eq_true h.1
  have hsign := of_decide_eq_false h.2.2
  unfold Double.exponent at hfinite hzero
  unfold Double.fraction at hzero
  refine ⟨x.bits.toNat / 2 ^ 52, x.bits.toNat % 2 ^ 52, (Nat.div_add_mod' _ _).symm, by omega,
    by omega, by omega, rfl, Iff.rfl⟩

/-- A positive double is its significand. -/
theorem value_significand (h : Positive x) : (significand x).value = x.magnitude := by
  obtain ⟨E, F, hbits, hE, hF, -, hsignificand, -⟩ := fields_of_positive h
  rw [magnitude_eq hbits (by omega) hF, hsignificand]
  split_ifs with hzero
  · rfl
  · unfold Diyfp.value kHiddenBit
    push_cast
    rfl

/-- The neighbour above is one unit further. -/
theorem magnitude_next (h : Positive x) :
    x.next.magnitude = ((significand x).f + 1 : ℚ) * 2 ^ (significand x).e := by
  obtain ⟨E, F, hbits, hE, hF, -, hsignificand, -⟩ := fields_of_positive h
  have hnext : x.next.bits.toNat = x.bits.toNat + 1 := by
    rw [Double.next, UInt64.toNat_add]
    change (x.bits.toNat + 1) % 2 ^ 64 = _
    omega
  rw [hsignificand]
  by_cases hcarry : F + 1 < 2 ^ 52
  · rw [magnitude_eq (E := E) (F := F + 1) (by omega) (by omega) hcarry]
    split_ifs with hzero
    · push_cast
      rfl
    · unfold kHiddenBit
      push_cast
      ring
  · have hlast : F + 1 = 2 ^ 52 := by omega
    have hF_eq : (F : ℚ) + 1 = 2 ^ 52 := by exact_mod_cast hlast
    rw [magnitude_eq (E := E + 1) (F := 0) (by omega) (by omega) (by decide),
      if_neg (Nat.succ_ne_zero E)]
    split_ifs with hzero
    · subst hzero
      rw [hF_eq, Nat.cast_zero, zero_add]
      rfl
    · have hexp : ((E + 1 : Nat) : Int) - kBias = E - kBias + 1 := by push_cast; ring
      rw [hexp, zpow_add_one₀ (by norm_num)]
      unfold kHiddenBit
      push_cast
      linear_combination (-(2 : ℚ) ^ ((E : Int) - kBias)) * hF_eq

/-- The neighbour below is one unit nearer, or half of one where the units change. -/
theorem magnitude_previous (h : Positive x) :
    x.previous.magnitude = if LowerBoundaryIsCloser x
      then (2 * (significand x).f - 1 : ℚ) * 2 ^ ((significand x).e - 1)
      else ((significand x).f - 1 : ℚ) * 2 ^ (significand x).e := by
  obtain ⟨E, F, hbits, hE, hF, hne, hsignificand, hcloser⟩ := fields_of_positive h
  have hprevious : x.previous.bits.toNat = x.bits.toNat - 1 := by
    have hpos : (1 : UInt64).toNat ≤ x.bits.toNat := by
      change 1 ≤ _
      omega
    exact UInt64.toNat_sub_of_le _ _ (UInt64.le_iff_toNat_le.mpr hpos)
  rw [hsignificand]
  by_cases hborrow : F = 0
  · subst hborrow
    have hpos : 0 < E := Nat.pos_of_ne_zero fun hzero => hne hzero rfl
    rw [magnitude_eq (E := E - 1) (F := 2 ^ 52 - 1) (by omega) (by omega) (by omega),
      if_neg (Nat.ne_of_gt hpos)]
    have hcast : ((2 ^ 52 - 1 : Nat) : ℚ) = 2 ^ 52 - 1 := by norm_num
    by_cases hone : E = 1
    · subst hone
      rw [if_pos rfl, if_neg (by rw [hcloser]; omega), hcast]
      unfold kHiddenBit kMinExp
      push_cast
      norm_num
    · rw [if_neg (by omega), if_pos (hcloser.mpr ⟨rfl, by omega⟩), hcast]
      have hexp : ((E - 1 : Nat) : Int) - kBias = E - kBias - 1 := by omega
      rw [hexp]
      unfold kHiddenBit
      push_cast
      ring
  · rw [magnitude_eq (E := E) (F := F - 1) (by omega) (by omega) (by omega),
      if_neg (fun hclose => hborrow (hcloser.mp hclose).1)]
    have hcast : ((F - 1 : Nat) : ℚ) = F - 1 := by
      rw [Nat.cast_sub (Nat.pos_of_ne_zero hborrow), Nat.cast_one]
    rw [hcast]
    split_ifs with hzero
    · rfl
    · unfold kHiddenBit
      push_cast
      ring

/-- **The upper boundary** is half way to the neighbour above. -/
theorem value_mPlus (h : Positive x) :
    (mPlus x).value = (x.magnitude + x.next.magnitude) / 2 := by
  rw [← value_significand h, magnitude_next h]
  unfold mPlus Diyfp.value
  dsimp only
  rw [zpow_sub_one₀ (by norm_num)]
  push_cast
  ring

/-- **The lower boundary** is half way to the neighbour below. -/
theorem value_mMinus (h : Positive x) :
    (mMinus x).value = (x.previous.magnitude + x.magnitude) / 2 := by
  have hpos := (significand_range h).1
  rw [← value_significand h, magnitude_previous h]
  unfold mMinus Diyfp.value
  dsimp only
  split_ifs
  · have hexp : (significand x).e - 2 = (significand x).e - 1 - 1 := by ring
    dsimp only
    rw [hexp, zpow_sub_one₀ (by norm_num), zpow_sub_one₀ (by norm_num), Nat.cast_sub (by omega)]
    push_cast
    ring
  · dsimp only
    rw [zpow_sub_one₀ (by norm_num), Nat.cast_sub (by omega)]
    push_cast
    ring

end Neighbours

end DtoaImpl
