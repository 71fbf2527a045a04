import Mathlib.Tactic.FieldSimp
import BlockstreamStation.GrisuBoundaries

/-!
# Scaling in Grisu2

The boundaries of a positive double, multiplied by a cached power of ten: the products
are at most one unit off.

* `getCachedPower_eq` — the power looked up brings the exponent into the range;
* `ready_of_scales` — the scaled boundaries are far enough apart for 17 digits;
* `lt_scaled`, `scaled_lt` — one unit makes up for the rounding.
-/

namespace DtoaImpl

open Doubles JsonText

/-! ## The cached powers -/

/-- The powers are normalized, and what scales a number of exponent `e` brings it into
the range. -/
def Scales (cached : CachedPower) (e : Int) : Prop :=
  2 ^ 63 ≤ cached.f ∧ cached.f < 2 ^ 64 ∧ kAlpha ≤ cached.e + e + 64 ∧
    cached.e + e + 64 ≤ kGamma ∧ -300 ≤ cached.k ∧ cached.k ≤ 324

instance (cached : CachedPower) (e : Int) : Decidable (Scales cached e) := by
  unfold Scales; infer_instance

/-- A power is right up to half a unit of its last bit, in whole numbers. -/
def Rounded (cached : CachedPower) : Prop :=
  let unit := 2 ^ cached.e.toNat * 10 ^ (-cached.k).toNat
  let exact := 10 ^ cached.k.toNat * 2 ^ (-cached.e).toNat
  2 * (cached.f * unit) ≤ 2 * exact + unit ∧ 2 * exact ≤ 2 * (cached.f * unit) + unit

instance (cached : CachedPower) : Decidable (Rounded cached) := by
  unfold Rounded; infer_instance

/-- All powers in the table are. -/
theorem rounded_all : ∀ cached ∈ kCachedPowers, Rounded cached := by decide +kernel

/-- What is looked up is in the table. -/
theorem mem_of_lookup {e : Int} {cached : CachedPower}
    (h : getCachedPowerForBinaryExponent e = .ok cached) : cached ∈ kCachedPowers := by
  unfold getCachedPowerForBinaryExponent at h
  dsimp only at h
  split_ifs at h
  all_goals
    split at h
    · cases h
    · rename_i found hfound
      split_ifs at h
      obtain rfl := Except.ok.inj h
      exact List.mem_of_getElem? hfound

/-- For every exponent of a double there is one in the table. -/
theorem scales_all : ∀ q < 20, ∀ r < 105, ∃ cached ∈
    (getCachedPowerForBinaryExponent ((105 * q + r : Nat) - 1137)).toOption,
      Scales cached ((105 * q + r : Nat) - 1137) := by
  decide +kernel

/-- **The power that is looked up** scales a double, and is rounded. -/
theorem getCachedPower_eq {e : Int} (hlow : -1137 ≤ e) (hhigh : e ≤ 960) :
    ∃ cached, getCachedPowerForBinaryExponent e = .ok cached ∧ Scales cached e ∧
      Rounded cached := by
  obtain ⟨i, rfl⟩ : ∃ i : Nat, e = i - 1137 := ⟨(e + 1137).toNat, by omega⟩
  obtain ⟨cached, hmem, hscales⟩ := scales_all (i / 105) (by omega) (i % 105) (by omega)
  rw [Nat.div_add_mod] at hmem hscales
  cases hlookup : getCachedPowerForBinaryExponent (i - 1137) with
  | error fault =>
      rw [hlookup] at hmem
      cases hmem
  | ok found =>
      rw [hlookup] at hmem
      obtain rfl := Option.some.inj hmem
      exact ⟨found, rfl, hscales, rounded_all found (mem_of_lookup hlookup)⟩

/-! ## The scaled boundaries -/

/-- A number times a power, rounded. -/
def scaled (cached : CachedPower) (a : Nat) : Nat := (a * cached.f + 2 ^ 63) / 2 ^ 64

/-- Scaling is multiplying. -/
theorem mul_cached {cached : CachedPower} {a : Nat} {e : Int} (h : Scales cached e)
    (ha : a < 2 ^ 64) :
    Diyfp.mul ⟨a, e⟩ ⟨cached.f, cached.e⟩ = ⟨scaled cached a, cached.e + e + 64⟩ :=
  mul_eq (x := ⟨a, e⟩) (y := ⟨cached.f, cached.e⟩) ha h.2.1

/-- What `grisu2_digit_gen` is called with: boundaries with room for the rounding, the
upper one at most `10 ^ 16` times what is between them. -/
structure Ready (M_minus w M_plus : Diyfp) : Prop where
  minus_e : M_plus.e = M_minus.e
  w_e : M_plus.e = w.e
  alpha : kAlpha ≤ M_plus.e
  gamma : M_plus.e ≤ kGamma
  minus_pos : 0 < M_minus.f
  minus_le : M_minus.f ≤ w.f
  w_le : w.f ≤ M_plus.f
  low : 2 ^ 61 ≤ M_plus.f
  high : M_plus.f < 2 ^ 64
  fine : M_plus.f ≤ 10 ^ 16 * (M_plus.f - M_minus.f)

/-- **The scaled boundaries** of a number, normalized at `W` with half the distance to
its neighbours `g * T` below and `2 * T` above. -/
theorem ready_of_scales {cached : CachedPower} {e : Int} (h : Scales cached e) {W T g : Nat}
    (hW : 2 ^ 63 ≤ W) (hup : W + 2 * T < 2 ^ 64) (hT : 2 ^ 9 ≤ T)
    (hg : g = 2 ∧ W ≤ 2 ^ 55 * T ∨ g = 1 ∧ W ≤ 2 ^ 54 * T) :
    Ready ⟨scaled cached (W - g * T) + 1, cached.e + e + 64⟩
      ⟨scaled cached W, cached.e + e + 64⟩
      ⟨scaled cached (W + 2 * T) - 1, cached.e + e + 64⟩ := by
  obtain ⟨hc, hc', halpha, hgamma, -⟩ := h
  have hplus : (W + 2 * T) * cached.f = W * cached.f + 2 * (T * cached.f) := by ring
  have hminus : (W - g * T) * cached.f = W * cached.f - g * (T * cached.f) := by
    rw [Nat.sub_mul, Nat.mul_assoc]
  have hA : 2 ^ 63 * 2 ^ 63 ≤ W * cached.f := Nat.mul_le_mul hW hc
  have hB : 2 ^ 9 * 2 ^ 63 ≤ T * cached.f := Nat.mul_le_mul hT hc
  have hle : (W + 2 * T) * cached.f ≤ (2 ^ 64 - 1) * (2 ^ 64 - 1) :=
    Nat.mul_le_mul (Nat.le_pred_of_lt hup) (Nat.le_pred_of_lt hc')
  have hratio : g = 2 ∧ W * cached.f ≤ 2 ^ 55 * (T * cached.f) ∨
      g = 1 ∧ W * cached.f ≤ 2 ^ 54 * (T * cached.f) := by
    rw [← Nat.mul_assoc, ← Nat.mul_assoc]
    exact hg.imp (fun h => ⟨h.1, Nat.mul_le_mul_right _ h.2⟩)
      fun h => ⟨h.1, Nat.mul_le_mul_right _ h.2⟩
  rw [hplus] at hle
  unfold scaled
  rw [hplus, hminus]
  generalize W * cached.f = A at *
  generalize T * cached.f = B at *
  refine ⟨rfl, rfl, halpha, hgamma, Nat.succ_pos _, ?_, ?_, ?_, ?_, ?_⟩ <;> dsimp only
  · obtain ⟨rfl, -⟩ | ⟨rfl, -⟩ := hratio <;> omega
  · omega
  · omega
  · omega
  · obtain ⟨rfl, hratio⟩ | ⟨rfl, hratio⟩ := hratio <;> omega

/-! ## How exact the scaling is -/

/-- A power with its exponent taken apart. -/
theorem zpow_eq_div {b : ℚ} (hb : b ≠ 0) (n : Int) :
    b ^ n = b ^ n.toNat / b ^ (-n).toNat := by
  rw [eq_div_iff (pow_ne_zero _ hb), ← zpow_natCast, ← zpow_natCast, ← zpow_add₀ hb]
  congr 1
  omega

/-- **A cached power** is right up to half a unit of its last bit. -/
theorem cached_value {cached : CachedPower} (h : Rounded cached) :
    (cached.f : ℚ) * 2 ^ cached.e ≤ 10 ^ cached.k + 2 ^ cached.e / 2 ∧
      (10 : ℚ) ^ cached.k ≤ cached.f * 2 ^ cached.e + 2 ^ cached.e / 2 := by
  obtain ⟨hupper, hlower⟩ := h
  have hupper : (2 : ℚ) * (cached.f * (2 ^ cached.e.toNat * 10 ^ (-cached.k).toNat)) ≤
      2 * (10 ^ cached.k.toNat * 2 ^ (-cached.e).toNat) +
        2 ^ cached.e.toNat * 10 ^ (-cached.k).toNat := by exact_mod_cast hupper
  have hlower : (2 : ℚ) * (10 ^ cached.k.toNat * 2 ^ (-cached.e).toNat) ≤
      2 * (cached.f * (2 ^ cached.e.toNat * 10 ^ (-cached.k).toNat)) +
        2 ^ cached.e.toNat * 10 ^ (-cached.k).toNat := by exact_mod_cast hlower
  rw [zpow_eq_div (by norm_num : (2 : ℚ) ≠ 0) cached.e,
    zpow_eq_div (by norm_num : (10 : ℚ) ≠ 0) cached.k]
  have htwo : (0 : ℚ) < 2 ^ (-cached.e).toNat := by positivity
  have hten : (0 : ℚ) < 10 ^ (-cached.k).toNat := by positivity
  generalize (2 : ℚ) ^ (-cached.e).toNat = p at *
  generalize (10 : ℚ) ^ (-cached.k).toNat = q at *
  constructor
  · rw [← sub_nonneg]
    have heq : (10 : ℚ) ^ cached.k.toNat / q + 2 ^ cached.e.toNat / p / 2 -
        cached.f * (2 ^ cached.e.toNat / p) =
        (2 * (10 ^ cached.k.toNat * p) + 2 ^ cached.e.toNat * q -
          2 * (cached.f * (2 ^ cached.e.toNat * q))) / (2 * p * q) := by
      field_simp
    rw [heq]
    exact div_nonneg (sub_nonneg.mpr hupper) (by positivity)
  · rw [← sub_nonneg]
    have heq : cached.f * (2 ^ cached.e.toNat / p) + 2 ^ cached.e.toNat / p / 2 -
        (10 : ℚ) ^ cached.k.toNat / q =
        (2 * (cached.f * (2 ^ cached.e.toNat * q)) + 2 ^ cached.e.toNat * q -
          2 * (10 ^ cached.k.toNat * p)) / (2 * p * q) := by
      field_simp
    rw [heq]
    exact div_nonneg (sub_nonneg.mpr hlower) (by positivity)

/-- One unit above the scaled product is above the product. -/
theorem lt_scaled {cached : CachedPower} (h : Rounded cached) {a : Nat} (ha : a < 2 ^ 64)
    (e : Int) : (a : ℚ) * 2 ^ e * 10 ^ cached.k <
      (scaled cached a + 1 : Nat) * 2 ^ (cached.e + e + 64) := by
  obtain ⟨-, hlower⟩ := cached_value h
  have hround : (a * cached.f : ℚ) + 2 ^ 63 <
      (scaled cached a + 1 : Nat) * 2 ^ 64 := by
    unfold scaled
    exact_mod_cast (by omega : a * cached.f + 2 ^ 63 <
      ((a * cached.f + 2 ^ 63) / 2 ^ 64 + 1) * 2 ^ 64)
  have ha : (a : ℚ) < 2 ^ 64 := by exact_mod_cast ha
  have hpos : (0 : ℚ) ≤ a := Nat.cast_nonneg a
  have hunit : (0 : ℚ) < 2 ^ cached.e := by positivity
  have he : (0 : ℚ) < 2 ^ e := by positivity
  generalize ((scaled cached a + 1 : Nat) : ℚ) = r at *
  have hpow : (2 : ℚ) ^ (cached.e + e + 64) = 2 ^ cached.e * 2 ^ e * 2 ^ 64 := by
    rw [zpow_add₀ (by norm_num), zpow_add₀ (by norm_num)]
    rfl
  rw [hpow]
  have hscaled : (a : ℚ) * 10 ^ cached.k < r * 2 ^ 64 * 2 ^ cached.e := by
    calc (a : ℚ) * 10 ^ cached.k
        ≤ a * (cached.f * 2 ^ cached.e + 2 ^ cached.e / 2) :=
          mul_le_mul_of_nonneg_left hlower hpos
      _ = (a * cached.f + a / 2) * 2 ^ cached.e := by ring
      _ < r * 2 ^ 64 * 2 ^ cached.e := by
          refine mul_lt_mul_of_pos_right ?_ hunit
          linarith
  calc (a : ℚ) * 2 ^ e * 10 ^ cached.k = a * 10 ^ cached.k * 2 ^ e := by ring
    _ < r * 2 ^ 64 * 2 ^ cached.e * 2 ^ e := mul_lt_mul_of_pos_right hscaled he
    _ = r * (2 ^ cached.e * 2 ^ e * 2 ^ 64) := by ring

/-- One unit below the scaled product is below the product. -/
theorem scaled_lt {cached : CachedPower} (h : Rounded cached) {a : Nat} (ha : a < 2 ^ 64)
    (e : Int) : (scaled cached a - 1 : ℚ) * 2 ^ (cached.e + e + 64) <
      a * 2 ^ e * 10 ^ cached.k := by
  obtain ⟨hupper, -⟩ := cached_value h
  have hround : (scaled cached a : ℚ) * 2 ^ 64 ≤ a * cached.f + 2 ^ 63 := by
    exact_mod_cast Nat.div_mul_le_self (a * cached.f + 2 ^ 63) (2 ^ 64)
  have ha : (a : ℚ) < 2 ^ 64 := by exact_mod_cast ha
  have hpos : (0 : ℚ) ≤ a := Nat.cast_nonneg a
  have hunit : (0 : ℚ) < 2 ^ cached.e := by positivity
  have he : (0 : ℚ) < 2 ^ e := by positivity
  generalize (scaled cached a : ℚ) = r at *
  have hpow : (2 : ℚ) ^ (cached.e + e + 64) = 2 ^ cached.e * 2 ^ e * 2 ^ 64 := by
    rw [zpow_add₀ (by norm_num), zpow_add₀ (by norm_num)]
    rfl
  rw [hpow]
  have hscaled : (r - 1) * 2 ^ 64 * 2 ^ cached.e < (a : ℚ) * 10 ^ cached.k := by
    calc (r - 1) * 2 ^ 64 * 2 ^ cached.e < (a * cached.f - a / 2) * 2 ^ cached.e := by
          refine mul_lt_mul_of_pos_right ?_ hunit
          linarith
      _ = a * (cached.f * 2 ^ cached.e - 2 ^ cached.e / 2) := by ring
      _ ≤ (a : ℚ) * 10 ^ cached.k := mul_le_mul_of_nonneg_left (by linarith) hpos
  calc (r - 1) * (2 ^ cached.e * 2 ^ e * 2 ^ 64)
      = (r - 1) * 2 ^ 64 * 2 ^ cached.e * 2 ^ e := by ring
    _ < (a : ℚ) * 10 ^ cached.k * 2 ^ e := mul_lt_mul_of_pos_right hscaled he
    _ = a * 2 ^ e * 10 ^ cached.k := by ring

end DtoaImpl
