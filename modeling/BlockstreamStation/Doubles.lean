import Mathlib.Data.Rat.Defs
import Mathlib.Tactic.Ring

/-!
# Doubles

A `double` as the 64 bits of its IEEE 754 format: the sign, eleven bits of exponent
and 52 bits of fraction.  Zero has a sign, so `0.0` and `-0.0` are different doubles
of one value, and the largest exponent is kept for infinities and NaN.

* `next`, `previous` — the neighbours of a positive double;
* `isFinite_abs`, `isZero_abs`, `signbit_abs` — dropping the sign changes nothing else.
-/

namespace Doubles

structure Double where
  bits : UInt64
deriving DecidableEq

namespace Double

/-- `std::signbit`. -/
def signbit (x : Double) : Bool := decide (2 ^ 63 ≤ x.bits.toNat)

/-- The biased exponent. -/
def exponent (x : Double) : Nat := x.bits.toNat / 2 ^ 52 % 2 ^ 11

def fraction (x : Double) : Nat := x.bits.toNat % 2 ^ 52

/-- `std::isfinite`: neither infinite nor NaN. -/
def isFinite (x : Double) : Bool := decide (x.exponent < 2047)

/-- `x == 0`, whatever the sign. -/
def isZero (x : Double) : Bool := decide (x.exponent = 0 ∧ x.fraction = 0)

/-- The double with its sign bit cleared. -/
def abs (x : Double) : Double := ⟨x.bits % 0x8000000000000000⟩

/-- The value of a finite double without its sign.  The leading one of the fraction is
not stored, and missing where the exponent is zero. -/
def magnitude (x : Double) : Rat :=
  if x.exponent = 0 then (x.fraction * 2 : Nat) / (2 ^ 1075 : Nat)
  else ((2 ^ 52 + x.fraction) * 2 ^ x.exponent : Nat) / (2 ^ 1075 : Nat)

/-- The value of a finite double. -/
def toRat (x : Double) : Rat := if x.signbit then -x.magnitude else x.magnitude

/-- The neighbour above a double that is not negative. -/
def next (x : Double) : Double := ⟨x.bits + 1⟩

/-- The neighbour below a positive double. -/
def previous (x : Double) : Double := ⟨x.bits - 1⟩

/-- The bits below the sign stay. -/
theorem toNat_abs (x : Double) : x.abs.bits.toNat = x.bits.toNat % 2 ^ 63 := by
  rw [abs, UInt64.toNat_mod]
  rfl

/-- The exponent is below the sign. -/
@[simp] theorem exponent_abs (x : Double) : x.abs.exponent = x.exponent := by
  unfold exponent
  rw [toNat_abs]
  omega

/-- So is the fraction. -/
@[simp] theorem fraction_abs (x : Double) : x.abs.fraction = x.fraction := by
  unfold fraction
  rw [toNat_abs]
  omega

/-- A number is finite with any sign. -/
@[simp] theorem isFinite_abs (x : Double) : x.abs.isFinite = x.isFinite := by
  unfold isFinite
  rw [exponent_abs]

/-- It is zero with any sign. -/
@[simp] theorem isZero_abs (x : Double) : x.abs.isZero = x.isZero := by
  unfold isZero
  rw [exponent_abs, fraction_abs]

/-- The sign is gone. -/
@[simp] theorem signbit_abs (x : Double) : x.abs.signbit = false := by
  unfold signbit
  rw [toNat_abs]
  exact decide_eq_false (by omega)

end Double

end Doubles
