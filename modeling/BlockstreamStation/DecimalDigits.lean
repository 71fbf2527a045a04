import Mathlib.Data.Nat.Digits.Lemmas
import Mathlib.Tactic.Linarith
import Mathlib.Tactic.Ring

/-!
# Digits of a number from the left

A number `M` is written digit by digit from the left, until what is left of it is at
most `delta`.  The digits so far count units, each digit makes the unit ten times
smaller, and behind the point it is the number that grows instead.

* `Pending.next`, `Pending.grow` — one more digit, and one more place behind the point;
* `Pending.length_lt` — a number of at most `10 ^ n` times `delta` never has more than
  `n` digits with something left;
* `Reached.of_pending` — the last digit can be made smaller, and does not become zero.
-/

namespace DecimalDigits

/-- The number that digits spell, the first of them in the highest place. -/
def decimalValue (digits : List Nat) : Nat := Nat.ofDigits 10 digits.reverse

/-- No digits spell zero. -/
@[simp] theorem decimalValue_nil : decimalValue [] = 0 := rfl

/-- Digits behind others move these up. -/
theorem decimalValue_append (front rest : List Nat) :
    decimalValue (front ++ rest) =
      decimalValue front * 10 ^ rest.length + decimalValue rest := by
  rw [decimalValue, List.reverse_append, Nat.ofDigits_append, List.length_reverse,
    Nat.mul_comm, Nat.add_comm, decimalValue, decimalValue]

/-- One more digit moves the others up a place. -/
theorem decimalValue_append_singleton (digits : List Nat) (d : Nat) :
    decimalValue (digits ++ [d]) = 10 * decimalValue digits + d := by
  rw [decimalValue_append, List.length_singleton, pow_one, Nat.mul_comm]
  rfl

/-- Zeros spell zero. -/
@[simp] theorem decimalValue_replicate_zero (n : Nat) :
    decimalValue (List.replicate n 0) = 0 := by
  rw [decimalValue, List.reverse_replicate, Nat.ofDigits_replicate_zero]

/-- The digits are digits, and the first of them is not zero. -/
structure Significant (digits : List Nat) : Prop where
  le_nine : ∀ d ∈ digits, d ≤ 9
  head_ne_zero : digits.head? ≠ some 0

/-- No digits are. -/
theorem significant_nil : Significant [] := ⟨List.forall_mem_nil _, nofun⟩

/-- A digit behind others, or one that is not zero. -/
theorem Significant.append_singleton {digits : List Nat} {d : Nat} (h : Significant digits)
    (hd : d ≤ 9) (hzero : digits = [] → d ≠ 0) : Significant (digits ++ [d]) where
  le_nine := List.forall_mem_append.mpr ⟨h.le_nine, List.forall_mem_singleton.mpr hd⟩
  head_ne_zero := by
    cases digits with
    | nil => exact fun heq => hzero rfl (Option.some.inj heq)
    | cons first digits => exact h.head_ne_zero

/-- `digits` count units of `M`, with more than `delta` left. -/
structure Pending (M delta unit rest : Nat) (digits : List Nat) : Prop where
  value : decimalValue digits * unit + rest = M
  below : rest < unit
  above : delta < rest
  scale : unit * 10 ^ digits.length ≤ 10 * M
  significant : Significant digits

/-- `digits` count units of `M`, with `delta` left at most, and none is left out at
either end. -/
structure Reached (M delta unit rest : Nat) (digits : List Nat) : Prop where
  value : decimalValue digits * unit + rest = M
  within : rest ≤ delta
  significant : Significant digits
  ne_nil : digits ≠ []

/-- Before the first digit all of the number is left. -/
theorem pending_nil {M delta unit : Nat} (hbelow : M < unit) (habove : delta < M)
    (hscale : unit ≤ 10 * M) : Pending M delta unit M [] where
  value := by rw [decimalValue_nil, Nat.zero_mul, Nat.zero_add]
  below := hbelow
  above := habove
  scale := by rwa [List.length_nil, pow_zero, Nat.mul_one]
  significant := significant_nil

section Steps

variable {M delta unit rest : Nat} {digits : List Nat}

/-- What is left has a digit in the next place. -/
theorem Pending.digit_le_nine (h : Pending M delta (10 * unit) rest digits) :
    rest / unit ≤ 9 :=
  Nat.lt_succ_iff.mp (Nat.div_lt_of_lt_mul (by rw [Nat.mul_comm]; exact h.below))

/-- The first digit is not zero. -/
theorem Pending.digit_ne_zero (h : Pending M delta (10 * unit) rest digits) (hunit : 0 < unit)
    (hnil : digits = []) : rest / unit ≠ 0 := by
  subst hnil
  have hvalue := h.value
  have hscale := h.scale
  rw [decimalValue_nil, Nat.zero_mul, Nat.zero_add] at hvalue
  rw [List.length_nil, pow_zero, Nat.mul_one] at hscale
  exact Nat.ne_of_gt (Nat.div_pos (by omega) hunit)

/-- With the next digit the units are ten times smaller. -/
theorem Pending.next_value (h : Pending M delta (10 * unit) rest digits) :
    decimalValue (digits ++ [rest / unit]) * unit + rest % unit = M := by
  rw [decimalValue_append_singleton]
  calc (10 * decimalValue digits + rest / unit) * unit + rest % unit
      = decimalValue digits * (10 * unit) + (unit * (rest / unit) + rest % unit) := by ring
    _ = M := by rw [Nat.div_add_mod, h.value]

/-- **One more digit**, with more than `delta` left. -/
theorem Pending.next (h : Pending M delta (10 * unit) rest digits) (hunit : 0 < unit)
    (habove : delta < rest % unit) :
    Pending M delta unit (rest % unit) (digits ++ [rest / unit]) where
  value := h.next_value
  below := Nat.mod_lt _ hunit
  above := habove
  scale := by
    rw [List.length_append, List.length_singleton, pow_succ]
    calc unit * (10 ^ digits.length * 10) = 10 * unit * 10 ^ digits.length := by ring
      _ ≤ 10 * M := h.scale
  significant := h.significant.append_singleton h.digit_le_nine (h.digit_ne_zero hunit)

/-- One more place behind the point: everything else grows. -/
theorem Pending.grow (h : Pending M delta unit rest digits) :
    Pending (10 * M) (10 * delta) (10 * unit) (10 * rest) digits where
  value := by
    rw [← h.value]
    ring
  below := Nat.mul_lt_mul_of_pos_left h.below (by decide)
  above := Nat.mul_lt_mul_of_pos_left h.above (by decide)
  scale := by
    have hscale := Nat.mul_le_mul_left 10 h.scale
    rwa [← Nat.mul_assoc] at hscale
  significant := h.significant

/-- **There are never many digits** with something left. -/
theorem Pending.length_lt (h : Pending M delta unit rest digits) {n : Nat}
    (hfine : M ≤ 10 ^ n * delta) : digits.length ≤ n := by
  have hunit : 0 < unit := Nat.zero_lt_of_lt h.below
  have hlt : unit * 10 ^ digits.length < unit * 10 ^ (n + 1) := by
    calc unit * 10 ^ digits.length ≤ 10 * M := h.scale
      _ ≤ 10 * (10 ^ n * delta) := Nat.mul_le_mul_left 10 hfine
      _ = delta * 10 ^ (n + 1) := by ring
      _ < unit * 10 ^ (n + 1) :=
          Nat.mul_lt_mul_of_pos_right (Nat.lt_trans h.above h.below) (by positivity)
  have hpow := Nat.lt_of_mul_lt_mul_left hlt
  exact Nat.lt_succ_iff.mp ((Nat.pow_lt_pow_iff_right (by decide)).mp hpow)

/-- **The last digit** can be made smaller, as long as `delta` allows it: it does not
become zero. -/
theorem Reached.of_pending (h : Pending M delta (10 * unit) rest digits)
    {d left : Nat} (hpos : 0 < d) (hd : d ≤ rest / unit)
    (hleft : d * unit + left = rest) (hwithin : left ≤ delta) :
    Reached M delta unit left (digits ++ [d]) where
  value := by
    rw [decimalValue_append_singleton]
    calc (10 * decimalValue digits + d) * unit + left
        = decimalValue digits * (10 * unit) + (d * unit + left) := by ring
      _ = M := by rw [hleft, h.value]
  within := hwithin
  significant := h.significant.append_singleton (Nat.le_trans hd h.digit_le_nine)
    fun _ => Nat.ne_of_gt hpos
  ne_nil := List.append_ne_nil_of_right_ne_nil _ (List.cons_ne_nil _ _)

end Steps

end DecimalDigits
