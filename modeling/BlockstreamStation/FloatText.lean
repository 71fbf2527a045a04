import BlockstreamStation.GrisuDigits
import BlockstreamStation.JsonNumbers

/-!
# Floating point numbers as text

`dump_float` of the vendored `nlohmann::json`, and below it `to_chars`,
`format_buffer` and `append_exponent`: the sign, and zero or the digits that `grisu2`
generates, with a point among them or an exponent behind them.  What is not finite is
written as `null`.

* `isFloatText_formatBuffer` — the digits are set as a number with a fraction or an
  exponent, in 23 bytes at most;
* `toChars_digits` — every finite number but zero comes out of `number_buffer` with the
  digits that Grisu2 generates.
-/

namespace JsonText

open CText DecimalDigits Doubles DtoaImpl

/-! ## The code -/

/-- `number_buffer.size()`. -/
def numberBufferSize : Nat := 64

/-- `max_digits10` of a `double`. -/
def maxDigits10 : Nat := 17

/-- `digits10` of a `double`. -/
def digits10 : Int := 15

/-- The digits `append_exponent` writes, at least two. -/
def exponentDigits (k : Nat) : Bytes :=
  if k < 10 then [0x30, UInt8.ofNat (0x30 + k)]
  else if k < 100 then [UInt8.ofNat (0x30 + k / 10), UInt8.ofNat (0x30 + k % 10)]
  else [UInt8.ofNat (0x30 + k / 100), UInt8.ofNat (0x30 + k % 100 / 10),
    UInt8.ofNat (0x30 + k % 100 % 10)]

/-- `append_exponent`. -/
def appendExponent (e : Int) : Except DumpFault Bytes :=
  if -1000 < e ∧ e < 1000 then
    return text (if e < 0 then "-" else "+") ++ exponentDigits e.natAbs
  else .error .assertion

/-- `format_buffer`: the number `buf * 10 ^ decimal_exponent`, in fixed notation from
`10 ^ min_exp` up to `10 ^ max_exp` and with an exponent otherwise. -/
def formatBuffer (buf : Bytes) (decimal_exponent min_exp max_exp : Int) :
    Except DumpFault Bytes :=
  let k : Int := buf.length
  let n := k + decimal_exponent
  if k ≤ n ∧ n ≤ max_exp then
    -- digits[000].0
    return buf ++ List.replicate (n - k).toNat 48 ++ text ".0"
  else if 0 < n ∧ n ≤ max_exp then
    -- dig.its
    return buf.take n.toNat ++ text "." ++ buf.drop n.toNat
  else if min_exp < n ∧ n ≤ 0 then
    -- 0.[000]digits
    return text "0." ++ List.replicate (-n).toNat 48 ++ buf
  else do
    -- dE+123 or d.igitsE+123
    let exponent ← appendExponent (n - 1)
    if k = 1 then return buf ++ text "e" ++ exponent
    else return buf.take 1 ++ text "." ++ buf.drop 1 ++ text "e" ++ exponent

/-- The characters of digits. -/
def digitChars (digits : List Nat) : Bytes := digits.map fun d => UInt8.ofNat (0x30 + d)

/-- The sign in front of a number, which zero has as well. -/
def signText (value : Double) : Bytes := if value.signbit then text "-" else []

/-- `to_chars` into `number_buffer`. -/
def toChars (value : Double) : Except DumpFault Bytes :=
  if value.isFinite then
    let sign := signText value
    let room := numberBufferSize - sign.length
    if value.isZero then return sign ++ text "0.0"
    else if maxDigits10 ≤ room then do
      let (digits, decimal_exponent) ← grisu2 room value.abs
      -- the last three assertions are about the room that is left
      if digits.length ≤ maxDigits10 ∧ digits10 + 2 ≤ room ∧
          2 + (4 - 1) + maxDigits10 ≤ room ∧ maxDigits10 + 6 ≤ room then do
        let written ← formatBuffer (digitChars digits) decimal_exponent (-4) digits10
        if written.length ≤ room then return sign ++ written else .error .outOfBounds
      else .error .assertion
    else .error .assertion
  else .error .assertion

/-- `dump_float`. -/
def dumpFloat (x : Double) : Except DumpFault Bytes :=
  if x.isFinite then toChars x else return text "null"

/-! ## The digits -/

/-- One to 17 digits, the first of them not zero, with a decimal exponent in the range
of `append_exponent`. -/
structure Generated (buf : Bytes) (decimal_exponent : Int) : Prop where
  digits : AllDigits buf
  head : ∃ b ds, buf = b :: ds ∧ b ≠ 48
  count : buf.length ≤ maxDigits10
  low : -1000 < buf.length + decimal_exponent - 1
  high : buf.length + decimal_exponent - 1 < 1000

/-- The text of a number with a fraction or an exponent, which can have a sign in
front. -/
def IsFloatText (t : Bytes) : Prop := ∀ minus, Minus minus → NumberText .float (minus ++ t)

/-- The character of a number below ten is a digit. -/
theorem isDigit_ofNat {d : Nat} (h : d < 10) : IsDigit (UInt8.ofNat (0x30 + d)) := by
  unfold IsDigit
  interval_cases d <;> decide

/-- Zeros are digits. -/
theorem allDigits_zeros (n : Nat) : AllDigits (List.replicate n 48) := by
  intro b hb
  rw [List.eq_of_mem_replicate hb]
  decide

/-- Digits in two parts. -/
theorem allDigits_append {front rest : Bytes} (hfront : AllDigits front)
    (hrest : AllDigits rest) : AllDigits (front ++ rest) :=
  List.forall_mem_append.mpr ⟨hfront, hrest⟩

/-- Below 1000 the exponent is written in digits. -/
theorem allDigits_exponentDigits {k : Nat} (h : k < 1000) : AllDigits (exponentDigits k) := by
  unfold exponentDigits
  split_ifs with hten hhundred
  · exact List.forall_mem_cons.mpr ⟨by decide, List.forall_mem_singleton.mpr (isDigit_ofNat hten)⟩
  · exact List.forall_mem_cons.mpr ⟨isDigit_ofNat (by omega),
      List.forall_mem_singleton.mpr (isDigit_ofNat (by omega))⟩
  · exact List.forall_mem_cons.mpr ⟨isDigit_ofNat (by omega), List.forall_mem_cons.mpr
      ⟨isDigit_ofNat (by omega), List.forall_mem_singleton.mpr (isDigit_ofNat (by omega))⟩⟩

/-- It has three of them at most. -/
theorem length_exponentDigits (k : Nat) :
    0 < (exponentDigits k).length ∧ (exponentDigits k).length ≤ 3 := by
  unfold exponentDigits
  split_ifs <;> exact ⟨Nat.succ_pos _, by simp⟩

/-- `append_exponent` writes an exponent of two digits or three. -/
theorem appendExponent_eq {e : Int} (hlow : -1000 < e) (hhigh : e < 1000) :
    ∃ t, appendExponent e = .ok t ∧ ExpPart (text "e" ++ t) ∧ t.length ≤ 4 := by
  obtain ⟨hpos, hlength⟩ := length_exponentDigits e.natAbs
  have hdigits := allDigits_exponentDigits (k := e.natAbs) (by omega)
  have hsign : text (if e < 0 then "-" else "+") = [43] ∨
      text (if e < 0 then "-" else "+") = [45] := by
    split_ifs
    · exact .inr rfl
    · exact .inl rfl
  have hone : (text (if e < 0 then "-" else "+")).length = 1 := by
    obtain hplus | hminus := hsign
    · rw [hplus, List.length_singleton]
    · rw [hminus, List.length_singleton]
  have hexp : ExpPart (101 :: (text (if e < 0 then "-" else "+") ++ exponentDigits e.natAbs)) :=
    .present (.inl rfl) (.inr hsign) (List.ne_nil_of_length_pos hpos) hdigits
  refine ⟨_, if_pos ⟨hlow, hhigh⟩, hexp, ?_⟩
  rw [List.length_append, hone]
  omega

/-- The parts of a number of the grammar. -/
theorem IsFloatText.of_parts {int frac exp : Bytes} (hint : IntPart int) (hfrac : FracPart frac)
    (hexp : ExpPart exp) (hne : frac ++ exp ≠ []) : IsFloatText (int ++ (frac ++ exp)) :=
  fun _ hminus => .float hminus hint hfrac hexp hne

/-- Digits before a point and behind it. -/
theorem isFloatText_fixed {int ds : Bytes} (hint : IntPart int) (hne : ds ≠ [])
    (hds : AllDigits ds) : IsFloatText (int ++ text "." ++ ds) := by
  have htext := IsFloatText.of_parts hint (.present hne hds) .absent (by simp)
  rw [List.append_nil] at htext
  rw [List.append_assoc]
  exact htext

/-- The digits `grisu2` generates can stand before a point, with zeros behind them. -/
theorem Generated.intPart_append {buf : Bytes} {decimal_exponent : Int}
    (h : Generated buf decimal_exponent) {zeros : Bytes} (hzeros : AllDigits zeros) :
    IntPart (buf ++ zeros) := by
  obtain ⟨b, ds, rfl, hb⟩ := h.head
  obtain ⟨hdigit, hds⟩ := allDigits_cons.mp h.digits
  exact .digits hdigit hb (allDigits_append hds hzeros)

/-- So can the first of them. -/
theorem Generated.intPart_take {buf : Bytes} {decimal_exponent : Int}
    (h : Generated buf decimal_exponent) {n : Nat} (hn : 0 < n) : IntPart (buf.take n) := by
  obtain ⟨b, ds, rfl, hb⟩ := h.head
  obtain ⟨hdigit, hds⟩ := allDigits_cons.mp h.digits
  obtain ⟨n, rfl⟩ := Nat.exists_eq_add_one_of_ne_zero (Nat.ne_of_gt hn)
  exact .digits hdigit hb fun c hc => hds c (List.mem_of_mem_take hc)

/-- The digits behind the point. -/
theorem Generated.allDigits_drop {buf : Bytes} {decimal_exponent : Int}
    (h : Generated buf decimal_exponent) (n : Nat) : AllDigits (buf.drop n) :=
  fun c hc => h.digits c (List.mem_of_mem_drop hc)

/-- **The digits are set as a number** with a fraction or an exponent. -/
theorem isFloatText_formatBuffer {buf : Bytes} {decimal_exponent : Int}
    (h : Generated buf decimal_exponent) :
    ∃ t, formatBuffer buf decimal_exponent (-4) digits10 = .ok t ∧ IsFloatText t ∧
      t.length ≤ maxDigits10 + 6 := by
  have hcount := h.count
  have hpos : 0 < buf.length := by
    obtain ⟨b, ds, rfl, -⟩ := h.head
    exact Nat.succ_pos _
  unfold maxDigits10 at hcount
  unfold formatBuffer maxDigits10 digits10
  dsimp only
  split_ifs with hwide hinside hsmall hone
  · refine ⟨_, rfl, ?_, ?_⟩
    · change IsFloatText (_ ++ (text "." ++ [48]))
      rw [← List.append_assoc]
      exact isFloatText_fixed (h.intPart_append (allDigits_zeros _)) (List.cons_ne_nil _ _)
        (List.forall_mem_singleton.mpr (by decide))
    · rw [List.length_append, List.length_append, List.length_replicate]
      change _ + 2 ≤ _
      omega
  · refine ⟨_, rfl, ?_, ?_⟩
    · refine isFloatText_fixed (h.intPart_take (by omega)) ?_ (h.allDigits_drop _)
      exact List.ne_nil_of_length_pos (by rw [List.length_drop]; omega)
    · rw [List.length_append, List.length_append, List.length_take, List.length_drop]
      change _ + 1 + _ ≤ _
      omega
  · refine ⟨_, rfl, ?_, ?_⟩
    · rw [List.append_assoc]
      have hne : buf ≠ [] := List.ne_nil_of_length_pos hpos
      exact isFloatText_fixed .zero (List.append_ne_nil_of_right_ne_nil _ hne)
        (allDigits_append (allDigits_zeros _) h.digits)
    · rw [List.length_append, List.length_append, List.length_replicate]
      change 2 + _ + _ ≤ _
      omega
  · obtain ⟨exponent, happend, hexp, hlength⟩ := appendExponent_eq h.low h.high
    rw [happend]
    refine ⟨_, rfl, ?_, ?_⟩
    · have hint := @Generated.intPart_append buf decimal_exponent h [] (List.forall_mem_nil _)
      rw [List.append_nil] at hint
      have htext := IsFloatText.of_parts hint .absent hexp (by simp [text])
      rw [List.append_assoc]
      exact htext
    · rw [List.length_append, List.length_append]
      change _ + 1 + _ ≤ _
      omega
  · obtain ⟨exponent, happend, hexp, hlength⟩ := appendExponent_eq h.low h.high
    rw [happend]
    refine ⟨_, rfl, ?_, ?_⟩
    · have hne : buf.drop 1 ≠ [] :=
        List.ne_nil_of_length_pos (by rw [List.length_drop]; omega)
      have htext := IsFloatText.of_parts (h.intPart_take Nat.one_pos)
        (.present hne (h.allDigits_drop 1)) hexp (by simp)
      simp only [List.append_assoc] at htext ⊢
      exact htext
    · rw [List.length_append, List.length_append, List.length_append, List.length_append,
        List.length_take, List.length_drop]
      change _ + 1 + _ + 1 + _ ≤ _
      omega

/-- The character of a digit is one. -/
theorem allDigits_digitChars {digits : List Nat} (h : ∀ d ∈ digits, d ≤ 9) :
    AllDigits (digitChars digits) := by
  intro b hb
  obtain ⟨d, hd, rfl⟩ := List.mem_map.mp hb
  exact isDigit_ofNat (Nat.lt_succ_of_le (h d hd))

/-- The digits of a double can be set. -/
theorem generated_of_represents {value : Double} {digits : List Nat} {decimal_exponent : Int}
    (h : Represents value digits decimal_exponent) :
    Generated (digitChars digits) decimal_exponent := by
  have hlength : (digitChars digits).length = digits.length := List.length_map _
  have hcount := h.length_le
  have hlow := h.low
  have hhigh := h.high
  refine ⟨allDigits_digitChars h.significant.le_nine, ?_, by rw [hlength]; exact hcount,
    by rw [hlength]; omega, by rw [hlength]; omega⟩
  cases digits with
  | nil => exact absurd rfl h.ne_nil
  | cons d digits =>
      refine ⟨_, _, rfl, ?_⟩
      have hd : d ≤ 9 := h.significant.le_nine d List.mem_cons_self
      have hzero : d ≠ 0 := fun hzero => h.significant.head_ne_zero (by rw [hzero]; rfl)
      interval_cases d
      · exact absurd rfl hzero
      all_goals decide

/-- A double without its sign is positive, if it is finite and not zero. -/
theorem positive_abs {x : Double} (hfinite : x.isFinite = true) (hzero : x.isZero = false) :
    Positive x.abs :=
  ⟨by rw [Double.isFinite_abs, hfinite], by rw [Double.isZero_abs, hzero], Double.signbit_abs x⟩

/-- The sign is a minus or nothing. -/
theorem minus_signText (x : Double) : Minus (signText x) ∧ (signText x).length ≤ 1 := by
  unfold signText
  split_ifs
  · exact ⟨.inr rfl, Nat.le_refl _⟩
  · exact ⟨.inl rfl, Nat.zero_le _⟩

/-- The text of zero is one of a number. -/
theorem isFloatText_zero : IsFloatText (text "0.0") :=
  @isFloatText_fixed [48] [48] .zero (List.cons_ne_nil _ _)
    (List.forall_mem_singleton.mpr (by decide))

/-- Zero is written with its sign. -/
theorem toChars_zero {x : Double} (hfinite : x.isFinite = true) (hzero : x.isZero = true) :
    toChars x = .ok (signText x ++ text "0.0") := by
  rw [toChars, if_pos hfinite, if_pos hzero]
  rfl

/-- **Every other finite number** is written with the digits that Grisu2 generates. -/
theorem toChars_digits {x : Double} (hfinite : x.isFinite = true) (hzero : x.isZero = false) :
    ∃ digits decimal_exponent t, Represents x.abs digits decimal_exponent ∧
      formatBuffer (digitChars digits) decimal_exponent (-4) digits10 = .ok t ∧
      IsFloatText t ∧ t.length ≤ maxDigits10 + 6 ∧ toChars x = .ok (signText x ++ t) := by
  obtain ⟨-, hsign⟩ := minus_signText x
  have hroom : maxDigits10 + 6 ≤ numberBufferSize - (signText x).length := by
    unfold maxDigits10 numberBufferSize
    omega
  obtain ⟨digits, decimal_exponent, hgrisu, hrepresents⟩ :=
    grisu2_eq (positive_abs hfinite hzero) (Nat.le_trans (Nat.le_add_right _ 6) hroom)
  obtain ⟨t, hformat, htext, hlength⟩ :=
    isFloatText_formatBuffer (generated_of_represents hrepresents)
  refine ⟨digits, decimal_exponent, t, hrepresents, hformat, htext, hlength, ?_⟩
  have hcount := hrepresents.length_le
  unfold maxDigits10 at hroom hlength
  rw [toChars, if_pos hfinite, hzero]
  change (if maxDigits10 ≤ numberBufferSize - (signText x).length then
    grisu2 (numberBufferSize - (signText x).length) x.abs >>= _ else _) = _
  rw [if_pos (by unfold maxDigits10; omega), hgrisu]
  dsimp only [bind, Except.bind]
  rw [if_pos (by unfold maxDigits10 digits10; omega), hformat]
  change (if t.length ≤ numberBufferSize - (signText x).length then _ else _) = _
  rw [if_pos (by omega)]
  rfl

/-- What is not finite is written as `null`, and everything else as a number. -/
theorem dumpFloat_eq (x : Double) : ∃ t, dumpFloat x = .ok t := by
  unfold dumpFloat
  split_ifs with hfinite
  · cases hzero : x.isZero with
    | true => exact ⟨_, toChars_zero hfinite hzero⟩
    | false =>
        obtain ⟨digits, decimal_exponent, t, -, -, -, -, hchars⟩ := toChars_digits hfinite hzero
        exact ⟨_, hchars⟩
  · exact ⟨text "null", rfl⟩

end JsonText
