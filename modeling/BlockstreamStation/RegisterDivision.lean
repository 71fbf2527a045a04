import Mathlib
import BlockstreamStation.ShiftRegister

/-!
# The shift register divides

A register of width `w` is the coefficient vector of a polynomial over the field of
two elements, of degree below `w`.  A shift multiplies by `X` modulo the generator
`X ^ w + poly` (`X_mul_registerPoly`), and so a register that is fed a message ends
with the remainder of the message, times `X ^ w`, by the generator: that is
`registerPoly_feedAll`.
-/

namespace ShiftRegister

open Polynomial

variable {w : Nat}

/-- A bit as a coefficient. -/
def coefficient (b : Bool) : ZMod 2 := if b then 1 else 0

/-- Exclusive or adds coefficients. -/
theorem coefficient_xor (a b : Bool) :
    coefficient (Bool.xor a b) = coefficient a + coefficient b := by
  cases a <;> cases b <;> decide

/-- The polynomial whose coefficients are the bits of a register. -/
noncomputable def registerPoly (v : BitVec w) : (ZMod 2)[X] :=
  ∑ i ∈ Finset.range w, C (coefficient (v.getLsbD i)) * X ^ i

/-- The polynomial whose coefficients are the bits of a message, the highest one
first. -/
noncomputable def messagePoly : List Bool → (ZMod 2)[X]
  | [] => 0
  | b :: rest => C (coefficient b) * X ^ rest.length + messagePoly rest

/-- The polynomial that a register divides by. -/
noncomputable def generator (poly : BitVec w) : (ZMod 2)[X] := X ^ w + registerPoly poly

/-! ## Coefficients -/

/-- The coefficients of a register are its bits. -/
@[simp] theorem coeff_registerPoly (v : BitVec w) (i : Nat) :
    (registerPoly v).coeff i = coefficient (v.getLsbD i) := by
  rw [registerPoly, finsetSum_coeff]
  simp only [coeff_C_mul_X_pow]
  by_cases hi : i < w
  · rw [Finset.sum_eq_single i]
    · simp
    · intro j _ hne
      simp [hne.symm]
    · intro hmem
      exact absurd (Finset.mem_range.mpr hi) hmem
  · rw [Finset.sum_eq_zero]
    · simp [BitVec.getLsbD_of_ge v i (by omega), coefficient]
    · intro j hj
      have hlt := Finset.mem_range.mp hj
      rw [if_neg (by omega)]

/-- The empty register. -/
theorem registerPoly_zero : registerPoly (0#w) = 0 := by
  ext i
  simp [coefficient]

/-- Exclusive or is addition. -/
theorem registerPoly_xor (a b : BitVec w) :
    registerPoly (a ^^^ b) = registerPoly a + registerPoly b := by
  ext i
  rw [coeff_add, coeff_registerPoly, coeff_registerPoly, coeff_registerPoly, BitVec.getLsbD_xor,
    coefficient_xor]

/-- A register is a polynomial of smaller degree than its width. -/
theorem degree_registerPoly_lt (v : BitVec w) : (registerPoly v).degree < w := by
  rw [degree_lt_iff_coeff_zero]
  intro i hi
  simp [BitVec.getLsbD_of_ge v i hi, coefficient]

/-- The generator has the leading term that the register leaves out. -/
theorem generator_monic (poly : BitVec w) : (generator poly).Monic :=
  monic_X_pow_add (degree_registerPoly_lt poly)

/-- Its degree is the width. -/
theorem degree_generator (poly : BitVec w) : (generator poly).degree = w := by
  rw [generator, degree_add_eq_left_of_degree_lt]
  · exact degree_X_pow w
  · rw [degree_X_pow]
    exact degree_registerPoly_lt poly

/-! ## One step -/

section Step

variable (hw : 0 < w)

include hw in
/-- Multiplying by `X` moves every bit one place up, and the top bit out. -/
theorem X_mul_registerPoly_eq (v : BitVec w) :
    X * registerPoly v = registerPoly (v <<< 1) + C (coefficient v.msb) * X ^ w := by
  ext i
  rw [coeff_add, coeff_registerPoly, coeff_C_mul_X_pow, BitVec.getLsbD_shiftLeft]
  cases i with
  | zero =>
      rw [coeff_X_mul_zero, if_neg (by omega)]
      simp [coefficient]
  | succ i =>
      rw [coeff_X_mul, coeff_registerPoly]
      by_cases htop : i + 1 = w
      · have hmsb : v.msb = v.getLsbD i := by
          rw [BitVec.msb_eq_getLsbD_last, show w - 1 = i by omega]
        rw [if_pos htop, hmsb]
        simp [htop, coefficient]
      · by_cases hinside : i + 1 < w
        · simp [htop, hinside]
        · simp [htop, hinside, BitVec.getLsbD_of_ge v i (by omega)]

include hw in
/-- A shift multiplies by `X` and takes the generator off when the top bit is
set. -/
theorem X_mul_registerPoly (poly v : BitVec w) :
    X * registerPoly v =
      registerPoly (shift poly v) + C (coefficient v.msb) * generator poly := by
  have htwo : (2 : (ZMod 2)[X]) = 0 := CharTwo.two_eq_zero
  rw [X_mul_registerPoly_eq hw, shift, generator]
  cases v.msb with
  | false => simp [coefficient]
  | true =>
      rw [if_pos rfl, registerPoly_xor]
      simp only [coefficient, if_true, map_one, one_mul]
      linear_combination -registerPoly poly * htwo

include hw in
/-- A message bit in the register is moved out by one multiplication. -/
theorem X_mul_registerPoly_inject (b : Bool) :
    X * registerPoly (inject b : BitVec w) = C (coefficient b) * X ^ w := by
  have hout : (inject b : BitVec w) <<< 1 = 0#w := by
    apply BitVec.eq_of_getLsbD_eq
    intro i hi
    rw [BitVec.getLsbD_shiftLeft, getLsbD_inject]
    grind
  have hmsb : (inject b : BitVec w).msb = b := by
    rw [BitVec.msb_eq_getLsbD_last, getLsbD_inject]
    grind
  rw [X_mul_registerPoly_eq hw, hout, hmsb, registerPoly_zero, zero_add]

include hw in
/-- What feeding a bit does, up to a multiple of the generator. -/
theorem X_mul_add_bit (poly v : BitVec w) (b : Bool) :
    ∃ k, X * registerPoly v + C (coefficient b) * X ^ w =
      registerPoly (feed poly v b) + k * generator poly := by
  refine ⟨C (coefficient (v ^^^ inject b).msb), ?_⟩
  rw [feed, ← X_mul_registerPoly hw, registerPoly_xor, mul_add, X_mul_registerPoly_inject hw]

end Step

/-! ## A message -/

/-- **Division.**  The register after a message is the remainder of the register
before it, moved up by the length of the message, and of the message, moved up by
the width of the register. -/
theorem registerPoly_feedAll (hw : 0 < w) (poly : BitVec w) (message : List Bool) :
    ∀ v, registerPoly (feedAll poly v message) =
      (registerPoly v * X ^ message.length + messagePoly message * X ^ w) %ₘ generator poly := by
  have hmonic := generator_monic poly
  induction message with
  | nil =>
      intro v
      have hdegree : (registerPoly v).degree < (generator poly).degree := by
        rw [degree_generator]
        exact degree_registerPoly_lt v
      simp [messagePoly, (modByMonic_eq_self_iff hmonic).mpr hdegree]
  | cons b rest ih =>
      intro v
      rw [feedAll_cons, ih]
      obtain ⟨k, hfeed⟩ := X_mul_add_bit hw poly v b
      apply modByMonic_eq_of_dvd_sub hmonic
      refine ⟨-(k * X ^ rest.length), ?_⟩
      rw [messagePoly, List.length_cons]
      linear_combination -(X ^ rest.length) * hfeed

end ShiftRegister
