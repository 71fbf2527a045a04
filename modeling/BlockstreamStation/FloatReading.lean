import BlockstreamStation.FloatText

/-!
# Reading floating point numbers back

What `dump_float` writes is a literal whose value lies strictly between the boundaries
half way to the neighbours of the number, or is zero with the sign of the number.
`strtod` is not part of the repository; rounding to the nearest double is what it has to
do to read the number back (`RoundsTo`).

* `literalValue_formatBuffer` — setting digits does not change their value;
* `toChars_nearest`, `dumpFloat_outcome` — what is written is nearest to the number;
* `strtod_toChars` — a `strtod` that rounds to nearest reads every finite number back.
-/

namespace JsonText

open CText DecimalDigits Doubles DtoaImpl

/-! ## The value of a literal -/

/-- The number that characters spell. -/
def charsValue (t : Bytes) : Nat := decimalValue (t.map fun b => b.toNat - 48)

/-- The exponent behind its letter. -/
def exponentValue : Bytes → Int
  | [] => 0
  | b :: ds =>
      if b = 43 then charsValue ds
      else if b = 45 then -(charsValue ds : Int)
      else charsValue (b :: ds)

/-- The value of digits with a point among them, or without, times a power of ten. -/
def mantissaValue (mantissa : Bytes) (exponent : Int) : ℚ :=
  let int := mantissa.takeWhile (· ≠ 46)
  let frac := (mantissa.dropWhile (· ≠ 46)).tail
  charsValue (int ++ frac) * 10 ^ (exponent - frac.length)

/-- The value of a literal without a sign. -/
def literalValue (t : Bytes) : ℚ :=
  mantissaValue (t.takeWhile fun b => ¬ IsExponent b)
    (exponentValue (t.dropWhile fun b => ¬ IsExponent b).tail)

/-- Is a number without a sign nearer to a finite double than to its neighbours?  Of
zero only zero itself is asked. -/
def NearestTo (x : Double) (q : ℚ) : Prop :=
  if x.isZero = true then q = 0
  else (x.abs.previous.magnitude + x.abs.magnitude) / 2 < q ∧
    q < (x.abs.magnitude + x.abs.next.magnitude) / 2

instance (x : Double) (q : ℚ) : Decidable (NearestTo x q) := by
  unfold NearestTo; infer_instance

/-- `strtod` rounds to nearest, as far as it concerns a finite double: it reads a literal
with the double's sign and a value nearer to it than to its neighbours as the double. -/
structure RoundsTo (strtod : Bytes → Double) (x : Double) : Prop where
  finite : x.isFinite = true
  reads : ∀ t, IsFloatText t → NearestTo x (literalValue t) → strtod (signText x ++ t) = x

/-- The digits before the point do not begin with a minus. -/
theorem IntPart.ne_minus {int rest tail : Bytes} (h : IntPart int) :
    45 :: tail ≠ int ++ rest := by
  intro heq
  cases h with
  | zero => exact absurd (List.cons.inj heq).1 (by decide)
  | digits hdigit _ _ =>
      rw [← (List.cons.inj heq).1] at hdigit
      exact absurd hdigit (by decide)

/-- Such a literal has no minus in front. -/
theorem IsFloatText.head_ne_minus {t : Bytes} (h : IsFloatText t) : t.head? ≠ some 45 := by
  intro hhead
  obtain ⟨tail, rfl⟩ := List.head?_eq_some_iff.mp hhead
  have hnumber := h [45] (.inr rfl)
  generalize heq : [45] ++ 45 :: tail = literal at hnumber
  cases hnumber with
  | float hminus hint _ _ _ =>
      obtain rfl | rfl := hminus
      · exact hint.ne_minus heq
      · exact hint.ne_minus (List.cons.inj heq).2

/-! ## The value of what is written -/

/-- Digits are not the letter of an exponent, and no point. -/
theorem not_exponent_of_digits {ds : Bytes} (h : AllDigits ds) :
    ∀ b ∈ ds, (decide ¬ IsExponent b) = true :=
  fun b hb => decide_eq_true fun hexponent => not_isDigit_of_isExponent hexponent (h b hb)

/-- There is no point among them. -/
theorem ne_point_of_digits {ds : Bytes} (h : AllDigits ds) :
    ∀ b ∈ ds, (decide (b ≠ 46)) = true := by
  intro b hb
  refine decide_eq_true fun heq => ?_
  have hdigit := h b hb
  rw [heq] at hdigit
  exact absurd hdigit (by decide)

/-- Digits without a point. -/
theorem mantissaValue_whole {int : Bytes} (hint : AllDigits int) (exponent : Int) :
    mantissaValue int exponent = charsValue int * 10 ^ exponent := by
  have hpoint := ne_point_of_digits hint
  unfold mantissaValue
  dsimp only
  rw [List.takeWhile_eq_self_iff.mpr hpoint, List.dropWhile_eq_nil_iff.mpr hpoint, List.tail_nil,
    List.append_nil, List.length_nil, Nat.cast_zero, sub_zero]

/-- Digits with a point among them. -/
theorem mantissaValue_point {int frac : Bytes} (hint : AllDigits int) (exponent : Int) :
    mantissaValue (int ++ 46 :: frac) exponent =
      charsValue (int ++ frac) * 10 ^ (exponent - frac.length) := by
  have hpoint := ne_point_of_digits hint
  have hstop : ¬ (decide ((46 : UInt8) ≠ 46)) = true := by decide
  unfold mantissaValue
  dsimp only
  rw [List.takeWhile_append_of_pos hpoint, List.dropWhile_append_of_pos hpoint,
    List.takeWhile_cons_of_neg (p := fun b => decide (b ≠ 46)) hstop,
    List.dropWhile_cons_of_neg (p := fun b => decide (b ≠ 46)) hstop, List.append_nil,
    List.tail_cons]

/-- A literal without an exponent. -/
theorem literalValue_plain {mantissa : Bytes}
    (h : ∀ b ∈ mantissa, (decide ¬ IsExponent b) = true) :
    literalValue mantissa = mantissaValue mantissa 0 := by
  rw [literalValue, List.takeWhile_eq_self_iff.mpr h, List.dropWhile_eq_nil_iff.mpr h]
  rfl

/-- A literal with an exponent. -/
theorem literalValue_exponent {mantissa exponent : Bytes}
    (h : ∀ b ∈ mantissa, (decide ¬ IsExponent b) = true) :
    literalValue (mantissa ++ 101 :: exponent) =
      mantissaValue mantissa (exponentValue exponent) := by
  have hstop : ¬ (decide ¬ IsExponent 101) = true := by decide
  rw [literalValue, List.takeWhile_append_of_pos h, List.dropWhile_append_of_pos h,
    List.takeWhile_cons_of_neg (p := fun b => decide ¬ IsExponent b) hstop,
    List.dropWhile_cons_of_neg (p := fun b => decide ¬ IsExponent b) hstop, List.append_nil,
    List.tail_cons]

/-- Digits with a point among them have no exponent. -/
theorem not_exponent_of_fixed {int frac : Bytes} (hint : AllDigits int)
    (hfrac : AllDigits frac) : ∀ b ∈ int ++ 46 :: frac, (decide ¬ IsExponent b) = true :=
  List.forall_mem_append.mpr ⟨not_exponent_of_digits hint,
    List.forall_mem_cons.mpr ⟨by decide, not_exponent_of_digits hfrac⟩⟩

/-- The characters of digits spell what the digits do. -/
theorem charsValue_digitChars {digits : List Nat} (h : ∀ d ∈ digits, d ≤ 9) :
    charsValue (digitChars digits) = decimalValue digits := by
  have hmap : (digitChars digits).map (fun b => b.toNat - 48) = digits := by
    rw [digitChars, List.map_map]
    refine List.map_congr_left (fun d hd => ?_) |>.trans (List.map_id _)
    have hle := h d hd
    change (UInt8.ofNat (0x30 + d)).toNat - 48 = d
    rw [UInt8.toNat_ofNat']
    omega
  rw [charsValue, hmap]

/-- Characters behind others move these up. -/
theorem charsValue_append (front rest : Bytes) :
    charsValue (front ++ rest) = charsValue front * 10 ^ rest.length + charsValue rest := by
  rw [charsValue, List.map_append, decimalValue_append, List.length_map, charsValue, charsValue]

/-- Zeros spell zero. -/
theorem charsValue_zeros (n : Nat) : charsValue (List.replicate n 48) = 0 := by
  rw [charsValue, List.map_replicate]
  exact decimalValue_replicate_zero n

/-- The digits of an exponent spell it. -/
theorem charsValue_exponentDigits {k : Nat} (h : k < 1000) :
    charsValue (exponentDigits k) = k := by
  unfold exponentDigits
  split_ifs with hten hhundred
  · change charsValue (digitChars [0, k]) = k
    rw [charsValue_digitChars (by simp; omega)]
    simp [decimalValue, Nat.ofDigits]
  · change charsValue (digitChars [k / 10, k % 10]) = k
    rw [charsValue_digitChars (by simp; omega)]
    simp [decimalValue, Nat.ofDigits]
    omega
  · change charsValue (digitChars [k / 100, k % 100 / 10, k % 100 % 10]) = k
    rw [charsValue_digitChars (by simp; omega)]
    simp [decimalValue, Nat.ofDigits]
    omega

/-- **An exponent is written as it is.** -/
theorem exponentValue_appendExponent {e : Int} {t : Bytes} (h : appendExponent e = .ok t) :
    exponentValue t = e := by
  unfold appendExponent at h
  split_ifs at h with hrange hsign <;> obtain rfl := Except.ok.inj h
  · change exponentValue (45 :: exponentDigits e.natAbs) = e
    rw [exponentValue, if_neg (by decide), if_pos rfl, charsValue_exponentDigits (by omega)]
    omega
  · change exponentValue (43 :: exponentDigits e.natAbs) = e
    rw [exponentValue, if_pos rfl, charsValue_exponentDigits (by omega)]
    omega

/-- A power of ten and a number of decimal places. -/
theorem mul_zpow_places (v z : Nat) {e : Int} {places : Nat} (h : e = z - places) :
    ((v * 10 ^ z : Nat) : ℚ) * 10 ^ (-(places : Int)) = v * 10 ^ e := by
  rw [Nat.cast_mul, Nat.cast_pow, Nat.cast_ofNat, mul_assoc, ← zpow_natCast,
    ← zpow_add₀ (by norm_num), h, sub_eq_add_neg]

/-- **Setting digits does not change their value.** -/
theorem literalValue_formatBuffer {buf t : Bytes} {decimal_exponent : Int}
    (hdigits : AllDigits buf) (hne : buf ≠ [])
    (h : formatBuffer buf decimal_exponent (-4) digits10 = .ok t) :
    literalValue t = charsValue buf * 10 ^ decimal_exponent := by
  have hpos := List.length_pos_iff.mpr hne
  have hzero : AllDigits [48] := List.forall_mem_singleton.mpr (by decide)
  have hvalue : charsValue [48] = 0 := rfl
  have hpoint : text "." = [46] := rfl
  have hletter : text "e" = [101] := rfl
  unfold formatBuffer at h
  dsimp only at h
  split_ifs at h with hwide hinside hsmall hone
  · obtain rfl := Except.ok.inj h
    have hzeros := allDigits_append hdigits
      (allDigits_zeros (buf.length + decimal_exponent - buf.length).toNat)
    have htext : text ".0" = [46, 48] := rfl
    rw [htext, literalValue_plain (not_exponent_of_fixed hzeros hzero),
      mantissaValue_point hzeros, zero_sub, charsValue_append, charsValue_append, charsValue_zeros,
      hvalue, Nat.add_zero, Nat.add_zero, List.length_replicate, List.length_singleton,
      Nat.mul_assoc, ← pow_add]
    exact mul_zpow_places _ _ (by omega)
  · obtain rfl := Except.ok.inj h
    have htake : AllDigits (buf.take (buf.length + decimal_exponent).toNat) :=
      fun b hb => hdigits b (List.mem_of_mem_take hb)
    have hdrop : AllDigits (buf.drop (buf.length + decimal_exponent).toNat) :=
      fun b hb => hdigits b (List.mem_of_mem_drop hb)
    rw [hpoint, List.append_assoc, List.singleton_append,
      literalValue_plain (not_exponent_of_fixed htake hdrop), mantissaValue_point htake,
      List.take_append_drop, List.length_drop]
    congr 2
    omega
  · obtain rfl := Except.ok.inj h
    have hzeros := allDigits_append
      (allDigits_zeros (-(buf.length + decimal_exponent)).toNat) hdigits
    have htext : text "0." = [48] ++ [46] := rfl
    rw [htext, List.append_assoc, List.append_assoc, List.singleton_append (x := 46),
      literalValue_plain (not_exponent_of_fixed hzero hzeros), mantissaValue_point hzero,
      charsValue_append, charsValue_append, charsValue_zeros, hvalue, Nat.zero_mul, Nat.zero_mul,
      Nat.zero_add, Nat.zero_add, List.length_append, List.length_replicate]
    congr 2
    omega
  · cases hexponent : appendExponent (buf.length + decimal_exponent - 1) with
    | error fault =>
        rw [hexponent] at h
        cases h
    | ok exponent =>
        rw [hexponent] at h
        obtain rfl := Except.ok.inj h
        rw [hletter, List.append_assoc, List.singleton_append,
          literalValue_exponent (not_exponent_of_digits hdigits), mantissaValue_whole hdigits,
          exponentValue_appendExponent hexponent]
        congr 2
        omega
  · cases hexponent : appendExponent (buf.length + decimal_exponent - 1) with
    | error fault =>
        rw [hexponent] at h
        cases h
    | ok exponent =>
        rw [hexponent] at h
        obtain rfl := Except.ok.inj h
        have htake : AllDigits (buf.take 1) := fun b hb => hdigits b (List.mem_of_mem_take hb)
        have hdrop : AllDigits (buf.drop 1) := fun b hb => hdigits b (List.mem_of_mem_drop hb)
        rw [hletter, hpoint, List.append_assoc _ [101], List.singleton_append (x := 101),
          List.append_assoc (buf.take 1), List.singleton_append (x := 46),
          literalValue_exponent (not_exponent_of_fixed htake hdrop), mantissaValue_point htake,
          exponentValue_appendExponent hexponent, List.take_append_drop, List.length_drop]
        congr 2
        omega

/-! ## Reading it back -/

/-- **Every finite number is written** as a literal with its sign, nearer to it than to
its neighbours. -/
theorem toChars_nearest {x : Double} (hfinite : x.isFinite = true) :
    ∃ t, toChars x = .ok (signText x ++ t) ∧ IsFloatText t ∧ t.length ≤ maxDigits10 + 6 ∧
      NearestTo x (literalValue t) := by
  cases hzero : x.isZero with
  | true =>
      have hnearest : NearestTo x (literalValue (text "0.0")) := by
        rw [NearestTo, if_pos hzero]
        decide +kernel
      exact ⟨text "0.0", toChars_zero hfinite hzero, isFloatText_zero, by decide, hnearest⟩
  | false =>
      have hpositive := positive_abs hfinite hzero
      obtain ⟨digits, decimal_exponent, t, hrepresents, hformat, htext, hlength, hchars⟩ :=
        toChars_digits hfinite hzero
      have hgenerated := generated_of_represents hrepresents
      have hne : digitChars digits ≠ [] := by
        obtain ⟨b, ds, heq, -⟩ := hgenerated.head
        rw [heq]
        exact List.cons_ne_nil _ _
      have hvalue : literalValue t = decimalValue digits * 10 ^ decimal_exponent := by
        rw [literalValue_formatBuffer hgenerated.digits hne hformat,
          charsValue_digitChars hrepresents.significant.le_nine]
      refine ⟨t, hchars, htext, hlength, ?_⟩
      rw [NearestTo, if_neg (by rw [hzero]; exact Bool.false_ne_true), ← value_mMinus hpositive,
        ← value_mPlus hpositive, hvalue]
      exact ⟨hrepresents.above, hrepresents.below⟩

/-- **A `strtod` that rounds to nearest reads every finite number back.** -/
theorem strtod_toChars {strtod : Bytes → Double} {x : Double} (h : RoundsTo strtod x) :
    ∃ t, toChars x = .ok t ∧ NumberText .float t ∧ strtod t = x := by
  obtain ⟨t, hchars, htext, -, hnearest⟩ := toChars_nearest h.finite
  exact ⟨_, hchars, htext _ (minus_signText x).1, h.reads t htext hnearest⟩

/-- **`dump_float`** writes `null`, or a literal with the sign of the number, of at most
24 bytes, whose value is nearer to it than to its neighbours. -/
theorem dumpFloat_outcome (x : Double) :
    if x.isFinite = true then
      ∃ t, dumpFloat x = .ok (signText x ++ t) ∧ NumberText .float (signText x ++ t) ∧
        (signText x ++ t).length ≤ 24 ∧ NearestTo x (literalValue t)
    else dumpFloat x = .ok (text "null") := by
  obtain ⟨hminus, hsign⟩ := minus_signText x
  split_ifs with hfinite
  · obtain ⟨t, hchars, htext, hlength, hnearest⟩ := toChars_nearest hfinite
    unfold maxDigits10 at hlength
    refine ⟨t, ?_, htext _ hminus, ?_, hnearest⟩
    · rw [dumpFloat, if_pos hfinite, hchars]
    · rw [List.length_append]
      omega
  · rw [dumpFloat, if_neg hfinite]
    rfl

end JsonText
