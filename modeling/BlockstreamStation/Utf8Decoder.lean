import BlockstreamStation.CodePoints
import BlockstreamStation.JsonText

/-!
# The decoder of `dump`

`serializer::decode` of the vendored `nlohmann::json` and the code points it works
out.  The library has it as a table: a byte has a class, and the state and the class
lead to the next state.  `decode` writes the same automaton by the bytes that each
state admits.

* `utf8_iff_encode` — the automaton accepts the UTF-8 forms of the texts;
* `utf8d_state` — the table is that automaton;
* `decodeByte_lead`, `decodeByte_tail` — the code point that the bytes put together.
-/

namespace JsonText

open CText CodePoints

/-! ## What the automaton accepts -/

/-- A byte string that is accepted behind a byte in a range has that byte in the range. -/
theorem decodeAll_within {low high b : UInt8} {next : Utf8State} {rest : Bytes}
    (h : decodeAll (within low high b next) rest = .accept) :
    (low ≤ b ∧ b ≤ high) ∧ decodeAll next rest = .accept := by
  unfold within at h
  split_ifs at h with hrange
  · exact ⟨hrange, h⟩
  · rw [decodeAll_reject] at h
    cases h

/-- In the state `one` a continuation byte comes next. -/
theorem tail_of_one {bytes : Bytes} (h : decodeAll .one bytes = .accept) :
    ∃ b rest, bytes = b :: rest ∧ Tail b ∧ decodeAll .accept rest = .accept := by
  cases bytes with
  | nil => cases h
  | cons b rest =>
      obtain ⟨hb, hrest⟩ := decodeAll_within h
      exact ⟨b, rest, rfl, hb, hrest⟩

/-- In the state `two` two of them come next. -/
theorem tails_of_two {bytes : Bytes} (h : decodeAll .two bytes = .accept) :
    ∃ b c rest, bytes = b :: c :: rest ∧ Tail b ∧ Tail c ∧
      decodeAll .accept rest = .accept := by
  cases bytes with
  | nil => cases h
  | cons b rest =>
      obtain ⟨hb, hrest⟩ := decodeAll_within h
      obtain ⟨c, rest, rfl, hc, hrest⟩ := tail_of_one hrest
      exact ⟨b, c, rest, rfl, hb, hc, hrest⟩

/-- Below the successor of a byte is at most the byte. -/
theorem le_of_lt_succ {a b c : UInt8} (h : a < b) (hc : b.toNat = c.toNat + 1) : a ≤ c := by
  rw [UInt8.lt_iff_toNat_lt] at h
  exact UInt8.le_iff_toNat_le.mpr (by omega)

/-- From a byte on, but not that byte, is at least its successor. -/
theorem succ_le_of_ne {a b c : UInt8} (h : ¬ a < b) (hne : a ≠ b) (hc : c.toNat = b.toNat + 1) :
    c ≤ a := by
  rw [UInt8.lt_iff_toNat_lt] at h
  rw [ne_eq, ← UInt8.toNat_inj] at hne
  exact UInt8.le_iff_toNat_le.mpr (by omega)

/-- An accepted byte string begins with a sequence of the table. -/
theorem sequence_of_utf8 {b : UInt8} {bytes : Bytes} (h : Utf8 (b :: bytes)) :
    ∃ added rest, Sequence (b :: added) ∧ bytes = added ++ rest ∧ Utf8 rest := by
  unfold Utf8 at h
  rw [decodeAll_cons, decode] at h
  split_ifs at h with h1 h2 h3 h4 h5 h6 h7 h8 h9
  · exact ⟨[], bytes, .one (le_of_lt_succ h1 rfl), rfl, h⟩
  · rw [decodeAll_reject] at h
    cases h
  · obtain ⟨c, rest, rfl, hc, hrest⟩ := tail_of_one h
    exact ⟨[c], rest, .two (UInt8.not_lt.mp h2) (le_of_lt_succ h3 rfl) hc, rfl, hrest⟩
  · cases bytes with
    | nil => cases h
    | cons c bytes =>
        obtain ⟨hc, hrest⟩ := decodeAll_within h
        obtain ⟨d, rest, rfl, hd, hrest⟩ := tail_of_one hrest
        exact ⟨[c, d], rest, h4 ▸ .afterE0 hc.1 hc.2 hd, rfl, hrest⟩
  · cases bytes with
    | nil => cases h
    | cons c bytes =>
        obtain ⟨hc, hrest⟩ := decodeAll_within h
        obtain ⟨d, rest, rfl, hd, hrest⟩ := tail_of_one hrest
        exact ⟨[c, d], rest, h5 ▸ .afterED hc.1 hc.2 hd, rfl, hrest⟩
  · obtain ⟨c, d, rest, rfl, hc, hd, hrest⟩ := tails_of_two h
    exact ⟨[c, d], rest, .three (succ_le_of_ne h3 h4 rfl) (le_of_lt_succ h6 rfl) h5 hc hd, rfl,
      hrest⟩
  · cases bytes with
    | nil => cases h
    | cons c bytes =>
        obtain ⟨hc, hrest⟩ := decodeAll_within h
        obtain ⟨d, e, rest, rfl, hd, he, hrest⟩ := tails_of_two hrest
        exact ⟨[c, d, e], rest, h7 ▸ .afterF0 hc.1 hc.2 hd he, rfl, hrest⟩
  · cases bytes with
    | nil => cases h
    | cons c bytes =>
        obtain ⟨hc, hrest⟩ := decodeAll_within h
        obtain ⟨d, e, rest, rfl, hd, he, hrest⟩ := tails_of_two hrest
        exact ⟨[c, d, e], rest, .four (succ_le_of_ne h6 h7 rfl) (le_of_lt_succ h8 rfl) hc hd he,
          rfl, hrest⟩
  · cases bytes with
    | nil => cases h
    | cons c bytes =>
        obtain ⟨hc, hrest⟩ := decodeAll_within h
        obtain ⟨d, e, rest, rfl, hd, he, hrest⟩ := tails_of_two hrest
        exact ⟨[c, d, e], rest, h9 ▸ .afterF4 hc.1 hc.2 hd he, rfl, hrest⟩
  · rw [decodeAll_reject] at h
    cases h

/-- A byte in the range goes on to the next state. -/
theorem within_eq {low high b : UInt8} {next : Utf8State} (h : low ≤ b ∧ b ≤ high) :
    within low high b next = next :=
  if_pos h

/-- The decoder comes out of a lead byte in the state that its number asks for. -/
theorem decode_accept_eq (b : UInt8) :
    decode .accept b =
      if b.toNat < 0x80 then .accept
      else if b.toNat < 0xC2 then .reject
      else if b.toNat < 0xE0 then .one
      else if b.toNat = 0xE0 then .afterE0
      else if b.toNat = 0xED then .afterED
      else if b.toNat < 0xF0 then .two
      else if b.toNat = 0xF0 then .afterF0
      else if b.toNat < 0xF4 then .three
      else if b.toNat = 0xF4 then .afterF4
      else .reject := by
  simp only [decode, UInt8.lt_iff_toNat_lt, ← UInt8.toNat_inj, UInt8.reduceToNat]

/-- The bytes lead from a state to acceptance, which comes with the last of them. -/
inductive Finishes : Utf8State → Bytes → Prop
  | last {state : Utf8State} {b : UInt8} : decode state b = .accept → Finishes state [b]
  | more {state next : Utf8State} {b : UInt8} {rest : Bytes} : decode state b = next →
      next ≠ .accept → next ≠ .reject → Finishes next rest → Finishes state (b :: rest)

/-- What finishes a code point is accepted. -/
theorem Finishes.decodeAll {state : Utf8State} {bytes : Bytes} (h : Finishes state bytes) :
    decodeAll state bytes = .accept := by
  induction h with
  | last hb => exact hb
  | more hb _ _ _ ih => rw [decodeAll_cons, hb, ih]

/-- A continuation byte finishes the state `one`. -/
theorem finishes_one {b : UInt8} (hb : Tail b) : Finishes .one [b] := .last (within_eq hb)

/-- Two of them finish the state `two`. -/
theorem finishes_two {b c : UInt8} (hb : Tail b) (hc : Tail c) : Finishes .two [b, c] :=
  .more (within_eq hb) (by decide) (by decide) (finishes_one hc)

/-- A sequence of the table is accepted at its end. -/
theorem finishes_of_sequence {bytes : Bytes} (h : Sequence bytes) : Finishes .accept bytes := by
  cases h with
  | one ha =>
      have h1 := UInt8.le_iff_toNat_le.mp ha
      simp only [UInt8.reduceToNat] at h1
      exact .last (by rw [decode_accept_eq, if_pos (by omega)])
  | two hlow hhigh hb =>
      have h1 := UInt8.le_iff_toNat_le.mp hlow
      have h2 := UInt8.le_iff_toNat_le.mp hhigh
      simp only [UInt8.reduceToNat] at h1 h2
      refine @Finishes.more .accept .one _ _ ?_ (by decide) (by decide) (finishes_one hb)
      rw [decode_accept_eq, if_neg (by omega), if_neg (by omega), if_pos (by omega)]
  | afterE0 hlow hhigh hc =>
      exact @Finishes.more .accept .afterE0 _ _ rfl (by decide) (by decide)
        (.more (within_eq ⟨hlow, hhigh⟩) (by decide) (by decide) (finishes_one hc))
  | three hlow hhigh hne hb hc =>
      have h1 := UInt8.le_iff_toNat_le.mp hlow
      have h2 := UInt8.le_iff_toNat_le.mp hhigh
      rw [ne_eq, ← UInt8.toNat_inj] at hne
      simp only [UInt8.reduceToNat] at h1 h2 hne
      refine @Finishes.more .accept .two _ _ ?_ (by decide) (by decide) (finishes_two hb hc)
      rw [decode_accept_eq, if_neg (by omega), if_neg (by omega), if_neg (by omega),
        if_neg (by omega), if_neg hne, if_pos (by omega)]
  | afterED hlow hhigh hc =>
      exact @Finishes.more .accept .afterED _ _ rfl (by decide) (by decide)
        (.more (within_eq ⟨hlow, hhigh⟩) (by decide) (by decide) (finishes_one hc))
  | afterF0 hlow hhigh hc hd =>
      exact @Finishes.more .accept .afterF0 _ _ rfl (by decide) (by decide)
        (.more (within_eq ⟨hlow, hhigh⟩) (by decide) (by decide) (finishes_two hc hd))
  | four hlow hhigh hb hc hd =>
      have h1 := UInt8.le_iff_toNat_le.mp hlow
      have h2 := UInt8.le_iff_toNat_le.mp hhigh
      simp only [UInt8.reduceToNat] at h1 h2
      refine @Finishes.more .accept .three _ _ ?_ (by decide) (by decide)
        (.more (within_eq hb) (by decide) (by decide) (finishes_two hc hd))
      rw [decode_accept_eq, if_neg (by omega), if_neg (by omega), if_neg (by omega),
        if_neg (by omega), if_neg (by omega), if_neg (by omega), if_neg (by omega),
        if_pos (by omega)]
  | afterF4 hlow hhigh hc hd =>
      exact @Finishes.more .accept .afterF4 _ _ rfl (by decide) (by decide)
        (.more (within_eq ⟨hlow, hhigh⟩) (by decide) (by decide) (finishes_two hc hd))

/-- The bytes of one code point are UTF-8. -/
theorem utf8_of_sequence {bytes : Bytes} (h : Sequence bytes) : Utf8 bytes :=
  (finishes_of_sequence h).decodeAll

/-- The bytes of a text are UTF-8. -/
theorem utf8_encode (chars : List Char) : Utf8 (encode chars) := by
  induction chars with
  | nil => rfl
  | cons c chars ih =>
      rw [encode_cons, utf8_append (utf8_of_sequence (sequence_utf8EncodeChar c))]
      exact ih

/-- UTF-8 is taken apart code point by code point, by induction on a bound of its length.
-/
theorem exists_encode_of_utf8 :
    ∀ (n : Nat) (bytes : Bytes), bytes.length ≤ n → Utf8 bytes →
      ∃ chars, bytes = encode chars := by
  intro n
  induction n with
  | zero =>
      intro bytes hlength _
      exact ⟨[], List.eq_nil_of_length_eq_zero (Nat.le_zero.mp hlength)⟩
  | succ n ih =>
      intro bytes hlength h
      cases bytes with
      | nil => exact ⟨[], rfl⟩
      | cons b bytes =>
          obtain ⟨added, rest, hsequence, rfl, hrest⟩ := sequence_of_utf8 h
          obtain ⟨c, hc⟩ := sequence_iff.mp hsequence
          rw [List.length_cons, List.length_append] at hlength
          obtain ⟨chars, rfl⟩ := ih rest (by omega) hrest
          exact ⟨c :: chars, by rw [encode_cons, hc, List.cons_append]⟩

/-- **The decoder accepts UTF-8.**  Its byte strings are the forms of the texts. -/
theorem utf8_iff_encode {bytes : Bytes} : Utf8 bytes ↔ ∃ chars, bytes = encode chars := by
  constructor
  · exact exists_encode_of_utf8 bytes.length bytes (Nat.le_refl _)
  · intro hexists
    obtain ⟨chars, rfl⟩ := hexists
    exact utf8_encode chars

/-! ## The table -/

/-- The classes of the bytes, and then one row for each state with the next state by
class. -/
def utf8d : List Nat :=
  [0, 0, 0, 0, 0, 0, 0, 0, 0, 0, 0, 0, 0, 0, 0, 0, -- 00..0F
   0, 0, 0, 0, 0, 0, 0, 0, 0, 0, 0, 0, 0, 0, 0, 0, -- 10..1F
   0, 0, 0, 0, 0, 0, 0, 0, 0, 0, 0, 0, 0, 0, 0, 0, -- 20..2F
   0, 0, 0, 0, 0, 0, 0, 0, 0, 0, 0, 0, 0, 0, 0, 0, -- 30..3F
   0, 0, 0, 0, 0, 0, 0, 0, 0, 0, 0, 0, 0, 0, 0, 0, -- 40..4F
   0, 0, 0, 0, 0, 0, 0, 0, 0, 0, 0, 0, 0, 0, 0, 0, -- 50..5F
   0, 0, 0, 0, 0, 0, 0, 0, 0, 0, 0, 0, 0, 0, 0, 0, -- 60..6F
   0, 0, 0, 0, 0, 0, 0, 0, 0, 0, 0, 0, 0, 0, 0, 0, -- 70..7F
   1, 1, 1, 1, 1, 1, 1, 1, 1, 1, 1, 1, 1, 1, 1, 1, -- 80..8F
   9, 9, 9, 9, 9, 9, 9, 9, 9, 9, 9, 9, 9, 9, 9, 9, -- 90..9F
   7, 7, 7, 7, 7, 7, 7, 7, 7, 7, 7, 7, 7, 7, 7, 7, -- A0..AF
   7, 7, 7, 7, 7, 7, 7, 7, 7, 7, 7, 7, 7, 7, 7, 7, -- B0..BF
   8, 8, 2, 2, 2, 2, 2, 2, 2, 2, 2, 2, 2, 2, 2, 2, -- C0..CF
   2, 2, 2, 2, 2, 2, 2, 2, 2, 2, 2, 2, 2, 2, 2, 2, -- D0..DF
   10, 3, 3, 3, 3, 3, 3, 3, 3, 3, 3, 3, 3, 4, 3, 3, -- E0..EF
   11, 6, 6, 6, 5, 8, 8, 8, 8, 8, 8, 8, 8, 8, 8, 8, -- F0..FF
   0, 1, 2, 3, 5, 8, 7, 1, 1, 1, 4, 6, 1, 1, 1, 1, -- s0
   1, 1, 1, 1, 1, 1, 1, 1, 1, 1, 1, 1, 1, 1, 1, 1, -- s1
   1, 0, 1, 1, 1, 1, 1, 0, 1, 0, 1, 1, 1, 1, 1, 1, -- s2
   1, 2, 1, 1, 1, 1, 1, 2, 1, 2, 1, 1, 1, 1, 1, 1, -- s3
   1, 1, 1, 1, 1, 1, 1, 2, 1, 1, 1, 1, 1, 1, 1, 1, -- s4
   1, 2, 1, 1, 1, 1, 1, 1, 1, 2, 1, 1, 1, 1, 1, 1, -- s5
   1, 1, 1, 1, 1, 1, 1, 3, 1, 3, 1, 1, 1, 1, 1, 1, -- s6
   1, 3, 1, 1, 1, 1, 1, 3, 1, 3, 1, 1, 1, 1, 1, 1, -- s7
   1, 3, 1, 1, 1, 1, 1, 1, 1, 1, 1, 1, 1, 1, 1, 1] -- s8

/-- `decode`: the next state and the code point so far. -/
def decodeByte (state : Nat) (codep : UInt32) (byte : UInt8) : Nat × UInt32 :=
  let type := utf8d.getD byte.toNat 0
  (utf8d.getD (256 + state * 16 + type) 0,
    if state ≠ 0 then (byte &&& 0x3F).toUInt32 ||| codep <<< 6
    else 0xFF >>> UInt32.ofNat type &&& byte.toUInt32)

/-- The number of a state in the table. -/
def Utf8State.number : Utf8State → Nat
  | .accept => 0
  | .reject => 1
  | .one => 2
  | .two => 3
  | .afterE0 => 4
  | .afterED => 5
  | .afterF0 => 6
  | .three => 7
  | .afterF4 => 8

/-- A statement about bytes holds if it does for the 256 numbers. -/
theorem forall_byte {P : UInt8 → Prop} (h : ∀ n < 256, P (UInt8.ofNat n)) (b : UInt8) : P b :=
  UInt8.ofNat_toNat (x := b) ▸ h b.toNat b.toNat_lt

/-- The class of a byte, by its number. -/
def byteClass (n : Nat) : Nat :=
  if n < 0x80 then 0
  else if n < 0x90 then 1
  else if n < 0xA0 then 9
  else if n < 0xC0 then 7
  else if n < 0xC2 then 8
  else if n < 0xE0 then 2
  else if n < 0xF0 then if n = 0xE0 then 10 else if n = 0xED then 4 else 3
  else if n = 0xF0 then 11
  else if n < 0xF4 then 6
  else if n = 0xF4 then 5
  else 8

/-- The first 256 entries of the table are the classes of the bytes. -/
theorem utf8d_class (byte : UInt8) : utf8d.getD byte.toNat 0 = byteClass byte.toNat := by
  have htake : utf8d.take 256 = (List.range 256).map byteClass := by decide +kernel
  have hlookup := congrArg (fun l => l.getD byte.toNat 0) htake
  simpa [List.getD_eq_getElem?_getD, List.getElem?_take, List.getElem?_range, byte.toNat_lt]
    using hlookup

/-- The lookups of the decoder stay inside the table. -/
theorem utf8d_index (state : Utf8State) (byte : UInt8) :
    256 + state.number * 16 + utf8d.getD byte.toNat 0 < utf8d.length := by
  have hall : ∀ n < 256, byteClass n < 12 := by decide +kernel
  have hclass := hall byte.toNat byte.toNat_lt
  have hlength : utf8d.length = 400 := by decide +kernel
  have hnumber : state.number ≤ 8 := by cases state <;> decide
  rw [utf8d_class, hlength]
  omega

/-- **The table is the automaton.** -/
theorem utf8d_state (state : Utf8State) (byte : UInt8) :
    utf8d.getD (256 + state.number * 16 + utf8d.getD byte.toNat 0) 0 =
      (decode state byte).number := by
  have hdrop : ∀ i, utf8d.getD (256 + i) 0 = (utf8d.drop 256).getD i 0 := by
    intro i
    simp [List.getD_eq_getElem?_getD]
  rw [utf8d_class, Nat.add_assoc, hdrop]
  revert byte
  cases state <;> exact forall_byte (by decide +kernel)

/-- The table goes from the number of a state to that of the next. -/
theorem decodeByte_state (state : Utf8State) (codep : UInt32) (byte : UInt8) :
    (decodeByte state.number codep byte).1 = (decode state byte).number :=
  utf8d_state state byte

/-- The bits of a lead byte that belong to the code point. -/
def payload (lead : UInt8) : Nat :=
  if lead.toNat < 0x80 then lead.toNat
  else if lead.toNat < 0xE0 then lead.toNat - 0xC0
  else if lead.toNat < 0xF0 then lead.toNat - 0xE0
  else lead.toNat - 0xF0

/-- The first byte of a code point leaves the bits it carries. -/
theorem decodeByte_lead {byte : UInt8} (codep : UInt32) (h : decode .accept byte ≠ .reject) :
    (decodeByte 0 codep byte).2.toNat = payload byte := by
  have hall : ∀ b : UInt8, decode .accept b ≠ .reject →
      (0xFF >>> UInt32.ofNat (byteClass b.toNat) &&& b.toUInt32).toNat = payload b :=
    forall_byte (by decide +kernel)
  rw [decodeByte, utf8d_class]
  exact hall byte h

/-- Zero is the number of the accepting state alone. -/
theorem number_eq_zero_iff {state : Utf8State} : state.number = 0 ↔ state = .accept := by
  cases state <;> decide

/-- One is the number of the rejecting state alone. -/
theorem number_eq_one_iff {state : Utf8State} : state.number = 1 ↔ state = .reject := by
  cases state <;> decide

/-- A continuation byte appends its six bits. -/
theorem decodeByte_tail {state : Utf8State} (hstate : state ≠ .accept) {codep : UInt32}
    (hcodep : codep.toNat < 2 ^ 26) (byte : UInt8) :
    (decodeByte state.number codep byte).2.toNat = 64 * codep.toNat + byte.toNat % 64 := by
  have hmask : byte.toNat &&& 63 = byte.toNat % 64 := Nat.and_two_pow_sub_one_eq_mod _ 6
  have hmod := Nat.mod_lt byte.toNat (show 0 < 64 by decide)
  have hshift : codep.toNat <<< (6 % 32) % 2 ^ 32 = 2 ^ 6 * codep.toNat := by
    rw [Nat.shiftLeft_eq, show 6 % 32 = 6 from rfl]
    omega
  simp only [decodeByte, if_pos (mt number_eq_zero_iff.mp hstate), UInt32.toNat_or,
    UInt8.toNat_toUInt32, UInt8.toNat_and, UInt8.reduceToNat, UInt32.toNat_shiftLeft,
    UInt32.reduceToNat, hmask, hshift]
  rw [Nat.or_comm, ← Nat.two_pow_add_eq_or_of_lt hmod]

/-- The number that the bytes of a sequence put together. -/
def sequenceValue : Bytes → Nat
  | [] => 0
  | lead :: tail => tail.foldl (fun n b => 64 * n + b.toNat % 64) (payload lead)

/-- The bits of the bytes of a code point make up its number. -/
theorem sequenceValue_utf8EncodeChar (c : Char) :
    sequenceValue (String.utf8EncodeChar c) = c.toNat := by
  have hvalid := toNat_valid c
  rw [utf8EncodeChar_eq]
  split_ifs with h1 h2 h3 <;>
    simp only [sequenceValue, payload, List.foldl_cons, List.foldl_nil, UInt8.toNat_ofNat',
      Nat.reducePow]
  · rw [Nat.mod_eq_of_lt (by omega), if_pos (by omega)]
  · rw [if_neg (by omega), if_pos (by omega)]
    omega
  · rw [if_neg (by omega), if_neg (by omega), if_pos (by omega)]
    omega
  · rw [if_neg (by omega), if_neg (by omega), if_neg (by omega)]
    omega

end JsonText
