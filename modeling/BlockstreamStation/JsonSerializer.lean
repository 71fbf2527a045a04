import BlockstreamStation.FloatReading

/-!
# The serializer

`serializer::dump` of the vendored `nlohmann::json` without pretty-printing, and
`dump_integer`, which writes a number from its end, two digits at a time, into
`number_buffer`.

* `dumpInteger_eq` — the digits that come out of the buffer are the numeral;
* `dumpValue_outcome` — a value is dumped, within the buffers, exactly if its strings
  and keys are UTF-8;
* `dumpValue_strings` — on objects of strings it is `dump`.
-/

namespace JsonText

open CText CodePoints Doubles

/-! ## Integers -/

/-- `digits_to_99`, its pairs in a row. -/
def digitsTo99 : Bytes :=
  text "00010203040506070809" ++ text "10111213141516171819" ++ text "20212223242526272829" ++
    text "30313233343536373839" ++ text "40414243444546474849" ++ text "50515253545556575859" ++
    text "60616263646566676869" ++ text "70717273747576777879" ++ text "80818283848586878889" ++
    text "90919293949596979899"

/-- `count_digits`. -/
def countDigits (x n_digits : Nat) : Nat :=
  if x < 10 then n_digits
  else if x < 100 then n_digits + 1
  else if x < 1000 then n_digits + 2
  else if x < 10000 then n_digits + 3
  else countDigits (x / 10000) (n_digits + 4)
termination_by x

/-- `number_buffer` with `buffer_ptr`. -/
structure NumberBuffer where
  bytes : Bytes
  buffer_ptr : Nat

/-- `*(--buffer_ptr) = c`. -/
def NumberBuffer.put (b : NumberBuffer) (c : UInt8) : Except DumpFault NumberBuffer :=
  if 0 < b.buffer_ptr ∧ b.buffer_ptr ≤ b.bytes.length then
    .ok ⟨b.bytes.set (b.buffer_ptr - 1) c, b.buffer_ptr - 1⟩
  else .error .outOfBounds

/-- Both digits of an index below 100. -/
def NumberBuffer.putPair (b : NumberBuffer) (digits_index : Nat) : Except DumpFault NumberBuffer :=
  do
    let b ← b.put (digitsTo99.getD (2 * digits_index + 1) 0)
    b.put (digitsTo99.getD (2 * digits_index) 0)

/-- The loop over the pairs of digits, and the one or two digits that are left. -/
def NumberBuffer.putDigits (b : NumberBuffer) (abs_value : Nat) : Except DumpFault NumberBuffer :=
  if 100 ≤ abs_value then do
    let b ← b.putPair (abs_value % 100)
    b.putDigits (abs_value / 100)
  else if 10 ≤ abs_value then b.putPair abs_value
  else b.put (UInt8.ofNat (0x30 + abs_value))
termination_by abs_value

/-- `remove_sign`. -/
def removeSign (x : Int64) : UInt64 := (-(x + 1)).toUInt64 + 1

/-- `dump_integer` of what is not zero; `buffer` is what `number_buffer` held. -/
def dumpDigits (buffer : Bytes) (negative : Bool) (abs_value : UInt64) :
    Except DumpFault Bytes :=
  let n_chars := (if negative then 1 else 0) + countDigits abs_value.toNat 1
  if n_chars < numberBufferSize - 1 then do
    let buffer := if negative then buffer.set 0 45 else buffer
    let b ← NumberBuffer.putDigits ⟨buffer, n_chars⟩ abs_value.toNat
    return b.bytes.take n_chars
  else .error .assertion

/-- `dump_integer` of a `number_unsigned_t`. -/
def dumpUnsigned (buffer : Bytes) (x : UInt64) : Except DumpFault Bytes :=
  if x = 0 then return text "0" else dumpDigits buffer false x

/-- `dump_integer` of a `number_integer_t`. -/
def dumpInteger (buffer : Bytes) (x : Int64) : Except DumpFault Bytes :=
  if x = 0 then return text "0"
  else if x < 0 then dumpDigits buffer true (removeSign x)
  else dumpDigits buffer false x.toUInt64

/-- The pairs of `digits_to_99` are the digits of the numbers below 100. -/
theorem digitsTo99_getD : ∀ i < 100, digitsTo99.getD (2 * i) 0 = digit (i / 10) ∧
    digitsTo99.getD (2 * i + 1) 0 = digit (i % 10) := by
  decide +kernel

/-- The last digit of a numeral is the remainder by ten. -/
theorem numeral_eq_append {n : Nat} (h : 10 ≤ n) :
    numeral 10 n = numeral 10 (n / 10) ++ [digit (n % 10)] := by
  have hreverse : (numeral 10 n).reverse = _ := reverse_numeral (by decide) n
  rw [if_neg (by omega)] at hreverse
  have hboth := congrArg List.reverse hreverse
  rwa [List.reverse_reverse, List.reverse_cons, List.reverse_reverse] at hboth

/-- Below ten the numeral is one digit. -/
theorem numeral_of_lt {n : Nat} (h : n < 10) : numeral 10 n = [digit n] := by
  have hreverse : (numeral 10 n).reverse = _ := reverse_numeral (by decide) n
  rw [if_pos (by omega), Nat.mod_eq_of_lt h] at hreverse
  have hboth := congrArg List.reverse hreverse
  rwa [List.reverse_reverse] at hboth

/-- The last two digits are those of the remainder by 100. -/
theorem numeral_eq_pair {n : Nat} (h : 100 ≤ n) :
    numeral 10 n = numeral 10 (n / 100) ++ [digit (n % 100 / 10), digit (n % 100 % 10)] := by
  rw [numeral_eq_append (by omega), numeral_eq_append (n := n / 10) (by omega),
    Nat.div_div_eq_div_mul, List.append_assoc, List.singleton_append]
  have hlast : n % 10 = n % 100 % 10 := by omega
  have hnext : n / 10 % 10 = n % 100 / 10 := by omega
  rw [hlast, hnext]

/-- A division by ten takes one digit away. -/
theorem length_numeral {n : Nat} (h : 10 ≤ n) :
    (numeral 10 n).length = (numeral 10 (n / 10)).length + 1 := by
  rw [numeral_eq_append h, List.length_append, List.length_singleton]

/-- Below ten the numeral has one digit. -/
theorem length_numeral_of_lt {n : Nat} (h : n < 10) : (numeral 10 n).length = 1 := by
  rw [numeral_of_lt h, List.length_singleton]

/-- `count_digits` is the length of the numeral. -/
theorem countDigits_eq (x : Nat) :
    ∀ n_digits, countDigits x (n_digits + 1) = n_digits + (numeral 10 x).length := by
  induction x using Nat.strongRecOn with
  | ind x ih =>
      intro n_digits
      rw [countDigits]
      split_ifs with h1 h2 h3 h4
      · rw [length_numeral_of_lt h1]
      · rw [length_numeral (by omega), length_numeral_of_lt (by omega)]
      · rw [length_numeral (by omega), length_numeral (by omega), length_numeral_of_lt (by omega)]
      · rw [length_numeral (by omega), length_numeral (by omega), length_numeral (by omega),
          length_numeral_of_lt (by omega)]
      · have hrest := ih (x / 10000) (by omega) (n_digits + 4)
        rw [length_numeral (by omega), length_numeral (by omega), length_numeral (by omega),
          length_numeral (by omega)]
        simp only [Nat.div_div_eq_div_mul, Nat.reduceMul]
        rw [Nat.add_right_comm n_digits 1 4, hrest]
        omega

/-- A write into the buffer replaces the byte before `buffer_ptr`. -/
theorem put_append (front rest : Bytes) (old c : UInt8) :
    NumberBuffer.put ⟨front ++ old :: rest, front.length + 1⟩ c =
      .ok ⟨front ++ c :: rest, front.length⟩ := by
  rw [NumberBuffer.put, if_pos (by simp)]
  simp

/-- A pair replaces the two bytes before `buffer_ptr`. -/
theorem putPair_append (front rest : Bytes) (old old' : UInt8) {i : Nat} (h : i < 100) :
    NumberBuffer.putPair ⟨front ++ old :: old' :: rest, front.length + 2⟩ i =
      .ok ⟨front ++ digit (i / 10) :: digit (i % 10) :: rest, front.length⟩ := by
  obtain ⟨hhigh, hlow⟩ := digitsTo99_getD i h
  have hlast := put_append (front ++ [old]) rest old' (digit (i % 10))
  rw [List.length_append, List.length_singleton, ← List.append_cons, ← List.append_cons] at hlast
  rw [NumberBuffer.putPair, hlow, hlast, hhigh]
  exact put_append front _ old _

/-- The digits come to stand where the buffer has room for them. -/
theorem putDigits_append (abs_value : Nat) :
    ∀ front room rest : Bytes, room.length = (numeral 10 abs_value).length →
      NumberBuffer.putDigits ⟨front ++ (room ++ rest), front.length + room.length⟩ abs_value =
        .ok ⟨front ++ (numeral 10 abs_value ++ rest), front.length⟩ := by
  induction abs_value using Nat.strongRecOn with
  | ind abs_value ih =>
      intro front room rest hroom
      rw [NumberBuffer.putDigits]
      split_ifs with h1 h2
      · have hpair := numeral_eq_pair h1
        rw [hpair, List.length_append] at hroom
        have htwo : (room.drop (numeral 10 (abs_value / 100)).length).length = 2 := by
          rw [List.length_drop, hroom]
          exact Nat.add_sub_cancel_left _ _
        obtain ⟨old, old', hlast⟩ := List.length_eq_two.mp htwo
        have hsplit : room = room.take (numeral 10 (abs_value / 100)).length ++ [old, old'] := by
          rw [← hlast, List.take_append_drop]
        have hlength : (room.take (numeral 10 (abs_value / 100)).length).length =
            (numeral 10 (abs_value / 100)).length := by
          rw [List.length_take, hroom]
          exact Nat.min_eq_left (Nat.le_add_right _ _)
        generalize room.take (numeral 10 (abs_value / 100)).length = room' at hsplit hlength
        subst hsplit
        have hput := putPair_append (front ++ room') rest old old' (i := abs_value % 100) (by omega)
        have hrest := ih (abs_value / 100) (by omega) front room'
          (digit (abs_value % 100 / 10) :: digit (abs_value % 100 % 10) :: rest) hlength
        simp only [List.length_append, List.length_cons, List.length_nil, List.append_assoc,
          List.cons_append, List.nil_append, Nat.zero_add, Nat.reduceAdd] at hput hrest ⊢
        rw [Nat.add_assoc] at hput
        rw [hput, hpair, List.append_assoc]
        exact hrest
      · rw [numeral_eq_append h2, numeral_of_lt (by omega), List.length_append] at hroom
        obtain ⟨old, old', rfl⟩ := List.length_eq_two.mp hroom
        rw [numeral_eq_append h2, numeral_of_lt (by omega)]
        exact putPair_append front rest old old' (by omega)
      · rw [numeral_of_lt (by omega)] at hroom ⊢
        obtain ⟨old, rfl⟩ := List.length_eq_one_iff.mp hroom
        have hdigit : UInt8.ofNat (0x30 + abs_value) = digit abs_value := by
          rw [digit, if_pos (by omega)]
        rw [hdigit]
        exact put_append front rest old _

/-- The sign of an `Int64` is that of its value. -/
theorem neg_iff_toInt {x : Int64} : x < 0 ↔ x.toInt < 0 := Int64.lt_iff_toInt_lt

/-- The bits of a number that is not negative. -/
theorem toUInt64_toNat {x : Int64} (h : 0 ≤ x.toInt) : (x.toUInt64.toNat : Int) = x.toInt := by
  have hcond := BitVec.toInt_eq_toNat_cond x.toBitVec
  have hlt := x.toBitVec.isLt
  rw [Int64.toInt_toBitVec] at hcond
  rw [← Int64.toNat_toBitVec]
  split_ifs at hcond <;> omega

/-- `remove_sign` gives the absolute value, that of the least `Int64` included. -/
theorem removeSign_toNat {x : Int64} (h : x < 0) : (removeSign x).toNat = x.toInt.natAbs := by
  have hneg : x.toInt < 0 := neg_iff_toInt.mp h
  have hlow := x.le_toInt
  have hsucc : (x + 1).toInt = x.toInt + 1 := by
    rw [Int64.toInt_add]
    exact Int.bmod_eq_of_le (by simp; omega) (by simp; omega)
  have hvalue : (-(x + 1)).toInt = -(x.toInt + 1) := by
    rw [Int64.toInt_neg, hsucc]
    exact Int.bmod_eq_of_le (by simp; omega) (by simp; omega)
  have hnat := toUInt64_toNat (x := -(x + 1)) (by omega)
  rw [removeSign, UInt64.toNat_add, UInt64.toNat_one]
  omega

/-- A number of up to 20 digits comes out of the buffer. -/
theorem dumpDigits_eq {buffer : Bytes} (hbuffer : buffer.length = numberBufferSize)
    (negative : Bool) (abs_value : UInt64) :
    dumpDigits buffer negative abs_value =
      .ok ((if negative then [45] else []) ++ numeral 10 abs_value.toNat) := by
  have hlt : abs_value.toNat < 10 ^ 20 := Nat.lt_trans abs_value.toNat_lt (by decide)
  have hdigits := (length_numeral_le_iff 10 20 abs_value.toNat (by decide) (by decide)).mpr hlt
  have hcount : countDigits abs_value.toNat 1 = (numeral 10 abs_value.toNat).length := by
    simpa using countDigits_eq abs_value.toNat 0
  generalize hsign : (if negative then [45] else [] : Bytes) = sign
  have hlength : sign.length = if negative then 1 else 0 := by
    subst hsign
    cases negative <;> rfl
  have hset : (if negative then buffer.set 0 45 else buffer) = sign ++ buffer.drop sign.length := by
    subst hsign
    cases negative with
    | true =>
        cases buffer with
        | nil => cases hbuffer
        | cons _ _ => rfl
    | false => rfl
  have hroom : ((buffer.drop sign.length).take (numeral 10 abs_value.toNat).length).length =
      (numeral 10 abs_value.toNat).length := by
    have hsmall : sign.length ≤ 1 := by
      rw [hlength]
      cases negative <;> decide
    rw [List.length_take, List.length_drop, hbuffer]
    unfold numberBufferSize
    omega
  have hput := putDigits_append abs_value.toNat sign _
    ((buffer.drop sign.length).drop (numeral 10 abs_value.toNat).length) hroom
  rw [List.take_append_drop, hroom] at hput
  rw [dumpDigits]
  simp only [hcount, hset, ← hlength]
  rw [if_pos (by rw [hlength]; unfold numberBufferSize; split_ifs <;> omega), hput]
  change Except.ok (List.take _ (sign ++ _)) = _
  rw [← List.append_assoc, ← List.length_append, List.take_left]

/-- **The digits of the buffer are the numeral**, whatever the buffer held. -/
theorem dumpInteger_eq {buffer : Bytes} (hbuffer : buffer.length = numberBufferSize)
    (x : Int64) : dumpInteger buffer x = .ok (decimal x.toInt) := by
  unfold dumpInteger decimal
  by_cases h0 : x = 0
  · subst h0
    rfl
  · rw [if_neg h0]
    by_cases hneg : x < 0
    · rw [if_pos hneg, if_pos (neg_iff_toInt.mp hneg), dumpDigits_eq hbuffer, removeSign_toNat hneg]
      rfl
    · have hge : 0 ≤ x.toInt := Int.not_lt.mp (mt neg_iff_toInt.mpr hneg)
      have hnat := toUInt64_toNat hge
      rw [if_neg hneg, if_neg (Int.not_lt.mpr hge), dumpDigits_eq hbuffer]
      congr 1
      rw [if_neg (by decide), List.nil_append]
      congr 1
      omega

/-- The same for numbers without a sign. -/
theorem dumpUnsigned_eq {buffer : Bytes} (hbuffer : buffer.length = numberBufferSize)
    (x : UInt64) : dumpUnsigned buffer x = .ok (numeral 10 x.toNat) := by
  unfold dumpUnsigned
  split_ifs with hzero
  · subst hzero
    rfl
  · rw [dumpDigits_eq hbuffer]
    rfl

/-! ## Values -/

section Dumping

variable (ensure_ascii : Bool)

/-- A string with its quotes. -/
def dumpString (s : Bytes) : Except DumpFault Bytes := do
  let escaped ← dumpEscapedBuffer ensure_ascii s
  return quote ++ escaped ++ quote

mutual

/-- `dump` without pretty-printing. -/
def dumpValue : Json → Except DumpFault Bytes
  | .null => return text "null"
  | .boolean b => return if b then text "true" else text "false"
  | .numberInteger n => dumpInteger (List.replicate numberBufferSize 0) n
  | .numberUnsigned n => dumpUnsigned (List.replicate numberBufferSize 0) n
  | .numberFloat x => dumpFloat x
  | .string s => dumpString ensure_ascii s
  | .array elements => do
      let written ← dumpElements elements
      return text "[" ++ written ++ text "]"
  | .object members => do
      let written ← dumpEntries members
      return text "\x7b" ++ written ++ text "\x7d"

/-- The elements of an array, with commas between them. -/
def dumpElements : List Json → Except DumpFault Bytes
  | [] => return []
  | [last] => dumpValue last
  | element :: rest => do
      let first ← dumpValue element
      let others ← dumpElements rest
      return first ++ text "," ++ others

/-- The members of an object, with commas between them. -/
def dumpEntries : List (Bytes × Json) → Except DumpFault Bytes
  | [] => return []
  | [(key, value)] => do
      let name ← dumpString ensure_ascii key
      let written ← dumpValue value
      return name ++ text ":" ++ written
  | (key, value) :: rest => do
      let name ← dumpString ensure_ascii key
      let written ← dumpValue value
      let others ← dumpEntries rest
      return name ++ text ":" ++ written ++ text "," ++ others

end

end Dumping

/-! ## What can be dumped -/

mutual

/-- The strings and the keys of a value. -/
def Json.texts : Json → List Bytes
  | .null | .boolean _ | .numberInteger _ | .numberUnsigned _ | .numberFloat _ => []
  | .string s => [s]
  | .array elements => elementTexts elements
  | .object members => entryTexts members

def elementTexts : List Json → List Bytes
  | [] => []
  | element :: rest => element.texts ++ elementTexts rest

def entryTexts : List (Bytes × Json) → List Bytes
  | [] => []
  | (key, value) :: rest => key :: (value.texts ++ entryTexts rest)

end

/-- The outcome that the texts ask for: a result if all are UTF-8, and otherwise the
exception. -/
def Outcome (result : Except DumpFault Bytes) (texts : List Bytes) : Prop :=
  (∃ t, result = .ok t) ∧ (∀ s ∈ texts, Utf8 s) ∨
    result = .error .typeError ∧ ∃ s ∈ texts, ¬ Utf8 s

/-- A result without strings in it. -/
theorem outcome_ok (t : Bytes) : Outcome (.ok t) [] :=
  .inl ⟨⟨t, rfl⟩, List.forall_mem_nil _⟩

/-- One outcome after the other: the first exception counts. -/
theorem Outcome.bind {result : Except DumpFault Bytes} {texts texts' : List Bytes}
    {f : Bytes → Except DumpFault Bytes} (h : Outcome result texts)
    (hf : ∀ t, Outcome (f t) texts') : Outcome (result >>= f) (texts ++ texts') := by
  obtain ⟨⟨t, rfl⟩, hall⟩ | ⟨rfl, s, hs, hutf8⟩ := h
  · obtain ⟨hok, hall'⟩ | ⟨hfailed, s, hs, hutf8⟩ := hf t
    · exact .inl ⟨hok, List.forall_mem_append.mpr ⟨hall, hall'⟩⟩
    · exact .inr ⟨hfailed, s, List.mem_append_right _ hs, hutf8⟩
  · exact .inr ⟨rfl, s, List.mem_append_left _ hs, hutf8⟩

/-- What is done with a result does not matter. -/
theorem Outcome.map {result : Except DumpFault Bytes} {texts : List Bytes}
    (h : Outcome result texts) (f : Bytes → Bytes) :
    Outcome (result >>= fun t => pure (f t)) texts := by
  have hbind := h.bind fun t => outcome_ok (f t)
  rwa [List.append_nil] at hbind

/-- A string is dumped exactly if it is UTF-8. -/
theorem outcome_dumpString (ensure_ascii : Bool) (s : Bytes) :
    Outcome (dumpString ensure_ascii s) [s] := by
  refine Outcome.map (f := fun escaped => quote ++ escaped ++ quote) ?_
  by_cases hutf8 : Utf8 s
  · obtain ⟨chars, rfl⟩ := utf8_iff_encode.mp hutf8
    exact .inl ⟨⟨_, dumpEscapedBuffer_encode chars⟩, List.forall_mem_singleton.mpr hutf8⟩
  · exact .inr ⟨dumpEscapedBuffer_of_not_utf8 hutf8, s, List.mem_singleton_self s, hutf8⟩

section Outcomes

variable (ensure_ascii : Bool)

mutual

/-- Every value has the outcome that its strings and keys ask for. -/
theorem outcome_dumpValue : (v : Json) → Outcome (dumpValue ensure_ascii v) v.texts
  | .null => outcome_ok _
  | .boolean _ => outcome_ok _
  | .numberInteger n => by
      rw [dumpValue, dumpInteger_eq List.length_replicate]
      exact outcome_ok _
  | .numberUnsigned n => by
      rw [dumpValue, dumpUnsigned_eq List.length_replicate]
      exact outcome_ok _
  | .numberFloat x => by
      obtain ⟨t, hdump⟩ := dumpFloat_eq x
      rw [dumpValue, hdump]
      exact outcome_ok t
  | .string s => outcome_dumpString ensure_ascii s
  | .array elements => (outcome_dumpElements elements).map fun t => text "[" ++ t ++ text "]"
  | .object members =>
      (outcome_dumpEntries members).map fun t => text "\x7b" ++ t ++ text "\x7d"

/-- So have the elements of an array. -/
theorem outcome_dumpElements : (es : List Json) →
    Outcome (dumpElements ensure_ascii es) (elementTexts es)
  | [] => outcome_ok _
  | [last] => by
      have hlast := outcome_dumpValue last
      rwa [dumpElements, elementTexts, elementTexts, List.append_nil]
  | element :: next :: rest => by
      have hfirst := outcome_dumpValue element
      have hothers := outcome_dumpElements (next :: rest)
      rw [dumpElements, elementTexts]
      · exact hfirst.bind fun first => hothers.map fun others => first ++ text "," ++ others
      · simp

/-- So have the members of an object. -/
theorem outcome_dumpEntries : (ms : List (Bytes × Json)) →
    Outcome (dumpEntries ensure_ascii ms) (entryTexts ms)
  | [] => outcome_ok _
  | [(key, v)] => by
      have hkey := outcome_dumpString ensure_ascii key
      have hvalue := outcome_dumpValue v
      rw [dumpEntries, entryTexts, entryTexts, List.append_nil]
      exact hkey.bind fun name => hvalue.map fun t => name ++ text ":" ++ t
  | (key, v) :: next :: rest => by
      have hkey := outcome_dumpString ensure_ascii key
      have hvalue := outcome_dumpValue v
      have hothers := outcome_dumpEntries (next :: rest)
      rw [dumpEntries, entryTexts]
      · exact hkey.bind fun name => hvalue.bind fun t => hothers.map fun others =>
          name ++ text ":" ++ t ++ text "," ++ others
      · simp

end

/-- **A value is dumped** within the buffers exactly if its strings and keys are
UTF-8; otherwise the exception is thrown. -/
theorem dumpValue_outcome (v : Json) :
    ((∃ t, dumpValue ensure_ascii v = .ok t) ↔ ∀ s ∈ v.texts, Utf8 s) ∧
      (dumpValue ensure_ascii v = .error .typeError ↔ ∃ s ∈ v.texts, ¬ Utf8 s) := by
  obtain ⟨⟨t, hok⟩, hall⟩ | ⟨hfailed, s, hs, hutf8⟩ :=
    outcome_dumpValue ensure_ascii v
  · refine ⟨iff_of_true ⟨t, hok⟩ hall, iff_of_false (by simp [hok]) ?_⟩
    intro hexists
    obtain ⟨s, hs, hutf8⟩ := hexists
    exact hutf8 (hall s hs)
  · refine ⟨iff_of_false (by simp [hfailed]) fun hall => hutf8 (hall s hs), ?_⟩
    exact iff_of_true hfailed ⟨s, hs, hutf8⟩

end Outcomes

/-! ## Objects of strings -/

/-- An object whose members are all strings. -/
def stringObject (members : List (Bytes × Bytes)) : Json :=
  .object (members.map fun m => (m.1, .string m.2))

/-- Forgetting the fault of a sequence. -/
theorem toOption_bind {α β : Type} (x : Except DumpFault α) (f : α → Except DumpFault β) :
    (x >>= f).toOption = x.toOption.bind fun a => (f a).toOption := by
  cases x <;> rfl

/-- Without `ensure_ascii` a string is written by `dumpEscaped`. -/
theorem dumpString_toOption (s : Bytes) :
    (dumpString false s).toOption =
      (dumpEscaped .accept s).map fun escaped => quote ++ escaped ++ quote := by
  rw [dumpString, toOption_bind, dumpEscapedBuffer_eq]
  cases dumpEscaped .accept s <;> rfl

/-- On a member whose value is a string the serializer is `dumpMember`. -/
theorem dumpMember_eq (m : Bytes × Bytes) :
    (dumpEntries false [(m.1, .string m.2)]).toOption = dumpMember m := by
  rw [dumpEntries, toOption_bind, dumpString_toOption, dumpMember, dumpValue]
  simp only [toOption_bind, dumpString_toOption]
  cases dumpEscaped .accept m.1 <;> cases dumpEscaped .accept m.2 <;>
    simp [Except.toOption, Pure.pure, Except.pure]

/-- Two members or more are the first, a comma, and the others. -/
theorem dumpEntries_cons (m next : Bytes × Json)
    (rest : List (Bytes × Json)) :
    dumpEntries false (m :: next :: rest) = (do
      let first ← dumpEntries false [m]
      let others ← dumpEntries false (next :: rest)
      return first ++ text "," ++ others) := by
  obtain ⟨key, v⟩ := m
  rw [dumpEntries, dumpEntries]
  · cases dumpString false key <;> cases dumpValue false v <;> rfl
  · simp

/-- On members whose values are strings it is `dumpMembers`. -/
theorem dumpMembers_eq (members : List (Bytes × Bytes)) :
    (dumpEntries false (members.map fun m => (m.1, .string m.2))).toOption =
      dumpMembers members := by
  induction members with
  | nil => rfl
  | cons member rest ih =>
      cases rest with
      | nil => exact dumpMember_eq member
      | cons next rest =>
          rw [List.map_cons] at ih
          rw [List.map_cons, List.map_cons, dumpEntries_cons, toOption_bind, dumpMember_eq,
            dumpMembers]
          · simp only [toOption_bind, ih]
            cases dumpMember member <;> cases dumpMembers (next :: rest) <;> rfl
          · simp

/-- On objects of strings the serializer is `dump`. -/
theorem dumpValue_strings (members : List (Bytes × Bytes)) :
    (dumpValue false (stringObject members)).toOption = dump members := by
  rw [stringObject, dumpValue, toOption_bind, dumpMembers_eq, dump]
  cases dumpMembers members <;> rfl

end JsonText
