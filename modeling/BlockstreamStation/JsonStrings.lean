import BlockstreamStation.CodePoints
import Mathlib.Data.List.Forall2

/-!
# String literals

`lexer::scan_string` of the vendored `nlohmann::json`, from behind the opening
quote: it copies well-formed UTF-8, undoes the escapes, puts the two halves of a
surrogate pair together and refuses everything else.

`StringBody` is the grammar of what may stand between the quotes, with the text it
stands for.

`scanString_iff` says that the scanner reads the string literals of the grammar, and
that the bytes it gathers are the UTF-8 form of the text.
-/

namespace JsonText

open CText CodePoints

/-! ## The scanner -/

def quoteMark : UInt8 := 34

def backslash : UInt8 := 92

/-- The value of a hexadecimal digit. -/
def hexDigit? (current : UInt8) : Option Nat :=
  if 48 ≤ current ∧ current ≤ 57 then some (current.toNat - 0x30)
  else if 65 ≤ current ∧ current ≤ 70 then some (current.toNat - 0x37)
  else if 97 ≤ current ∧ current ≤ 102 then some (current.toNat - 0x57)
  else none

/-- `get_codepoint`: the number of four hexadecimal digits, and what follows
them. -/
def getCodepoint : Bytes → Option (Nat × Bytes)
  | c1 :: c2 :: c3 :: c4 :: rest => do
      let d1 ← hexDigit? c1
      let d2 ← hexDigit? c2
      let d3 ← hexDigit? c3
      let d4 ← hexDigit? c4
      return (d1 <<< 12 + d2 <<< 8 + d3 <<< 4 + d4 <<< 0, rest)
  | _ => none

/-- The bytes a code point is translated into. -/
def codepointBytes (codepoint : Nat) : Bytes :=
  if codepoint < 0x80 then [UInt8.ofNat codepoint]
  else if codepoint ≤ 0x7FF then
    [UInt8.ofNat (0xC0 ||| codepoint >>> 6), UInt8.ofNat (0x80 ||| codepoint &&& 0x3F)]
  else if codepoint ≤ 0xFFFF then
    [UInt8.ofNat (0xE0 ||| codepoint >>> 12), UInt8.ofNat (0x80 ||| codepoint >>> 6 &&& 0x3F),
      UInt8.ofNat (0x80 ||| codepoint &&& 0x3F)]
  else
    [UInt8.ofNat (0xF0 ||| codepoint >>> 18), UInt8.ofNat (0x80 ||| codepoint >>> 12 &&& 0x3F),
      UInt8.ofNat (0x80 ||| codepoint >>> 6 &&& 0x3F), UInt8.ofNat (0x80 ||| codepoint &&& 0x3F)]

/-- The byte that a letter behind a backslash stands for. -/
def simpleEscape (current : UInt8) : Option UInt8 :=
  if current = 34 then some 34
  else if current = 92 then some 92
  else if current = 47 then some 47
  else if current = 98 then some 8
  else if current = 102 then some 12
  else if current = 110 then some 10
  else if current = 114 then some 13
  else if current = 116 then some 9
  else none

/-- The ranges in which the bytes behind a lead byte have to be. -/
def continuationRanges (lead : UInt8) : Option (List (UInt8 × UInt8)) :=
  if lead ≤ 0x7F then some []
  else if 0xC2 ≤ lead ∧ lead ≤ 0xDF then some [(0x80, 0xBF)]
  else if lead = 0xE0 then some [(0xA0, 0xBF), (0x80, 0xBF)]
  else if 0xE1 ≤ lead ∧ lead ≤ 0xEF ∧ lead ≠ 0xED then some [(0x80, 0xBF), (0x80, 0xBF)]
  else if lead = 0xED then some [(0x80, 0x9F), (0x80, 0xBF)]
  else if lead = 0xF0 then some [(0x90, 0xBF), (0x80, 0xBF), (0x80, 0xBF)]
  else if 0xF1 ≤ lead ∧ lead ≤ 0xF3 then some [(0x80, 0xBF), (0x80, 0xBF), (0x80, 0xBF)]
  else if lead = 0xF4 then some [(0x80, 0x8F), (0x80, 0xBF), (0x80, 0xBF)]
  else none

/-- `next_byte_in_range`: the bytes that are added, and what is left. -/
def nextByteInRange : List (UInt8 × UInt8) → Bytes → Option (Bytes × Bytes)
  | [], input => some ([], input)
  | _ :: _, [] => none
  | range :: ranges, current :: input =>
      if range.1 ≤ current ∧ current ≤ range.2 then
        (nextByteInRange ranges input).map fun (added, left) => (current :: added, left)
      else none

/-- What the scanner finds next: the closing quote, bytes for its buffer, or an
error. -/
inductive Scanned where
  | closed (rest : Bytes)
  | added (bytes rest : Bytes)
  | failed

/-- The case `u` of an escape. -/
def scanUnicode (input : Bytes) : Scanned :=
  match getCodepoint input with
  | none => .failed
  | some (codepoint1, rest) =>
      if 0xD800 ≤ codepoint1 ∧ codepoint1 ≤ 0xDBFF then
        match rest with
        | 92 :: 117 :: rest =>
            match getCodepoint rest with
            | none => .failed
            | some (codepoint2, rest) =>
                if 0xDC00 ≤ codepoint2 ∧ codepoint2 ≤ 0xDFFF then
                  .added (codepointBytes (codepoint1 <<< 10 + codepoint2 - 0x35FDC00)) rest
                else .failed
        | _ => .failed
      else if 0xDC00 ≤ codepoint1 ∧ codepoint1 ≤ 0xDFFF then .failed
      else .added (codepointBytes codepoint1) rest

/-- What follows a backslash. -/
def scanEscape : Bytes → Scanned
  | [] => .failed
  | current :: rest =>
      if current = 117 then scanUnicode rest
      else
        match simpleEscape current with
        | some byte => .added [byte] rest
        | none => .failed

/-- One round of the loop of `scan_string`. -/
def scanCharacter : Bytes → Scanned
  | [] => .failed
  | current :: rest =>
      if current = quoteMark then .closed rest
      else if current = backslash then scanEscape rest
      else if current ≤ 0x1F then .failed
      else
        match continuationRanges current with
        | none => .failed
        | some ranges =>
            match nextByteInRange ranges rest with
            | some (added, left) => .added (current :: added) left
            | none => .failed

/-- The bytes that are added lie in the ranges, one in each. -/
theorem nextByteInRange_eq_some {added left : Bytes} :
    ∀ (ranges : List (UInt8 × UInt8)) (input : Bytes),
      nextByteInRange ranges input = some (added, left) ↔
        input = added ++ left ∧
          List.Forall₂ (fun b range => range.1 ≤ b ∧ b ≤ range.2) added ranges := by
  intro ranges
  induction ranges generalizing added with
  | nil =>
      intro input
      rw [nextByteInRange, Option.some.injEq, Prod.mk.injEq, List.forall₂_nil_right_iff]
      constructor
      · intro hparts
        obtain ⟨rfl, rfl⟩ := hparts
        exact ⟨rfl, rfl⟩
      · intro hparts
        obtain ⟨hinput, rfl⟩ := hparts
        exact ⟨rfl, hinput⟩
  | cons range ranges ih =>
      intro input
      cases input with
      | nil =>
          rw [nextByteInRange]
          refine iff_of_false (by simp) fun hparts => ?_
          obtain ⟨hinput, hall⟩ := hparts
          obtain ⟨rfl, -⟩ := List.append_eq_nil_iff.mp hinput.symm
          cases hall
      | cons current input =>
          rw [nextByteInRange]
          by_cases hrange : range.1 ≤ current ∧ current ≤ range.2
          · rw [if_pos hrange, Option.map_eq_some_iff]
            constructor
            · intro hexists
              obtain ⟨⟨added', left'⟩, hnext, heq⟩ := hexists
              obtain ⟨rfl, rfl⟩ := Prod.mk.inj heq
              obtain ⟨rfl, hall⟩ := (ih input).mp hnext
              exact ⟨rfl, .cons hrange hall⟩
            · intro hparts
              obtain ⟨hinput, hall⟩ := hparts
              cases hall with
              | cons hhead hall =>
                  obtain ⟨rfl, rfl⟩ := List.cons.inj hinput
                  exact ⟨_, (ih _).mpr ⟨rfl, hall⟩, rfl⟩
          · rw [if_neg hrange]
            refine iff_of_false (by simp) fun hparts => ?_
            obtain ⟨hinput, hall⟩ := hparts
            cases hall with
            | cons hhead hall =>
                obtain ⟨rfl, -⟩ := List.cons.inj hinput
                exact hrange hhead

/-- Four hexadecimal digits are read as their number. -/
theorem getCodepoint_eq_some {input rest : Bytes} {n : Nat} :
    getCodepoint input = some (n, rest) ↔
      ∃ c1 c2 c3 c4 d1 d2 d3 d4, input = c1 :: c2 :: c3 :: c4 :: rest ∧
        hexDigit? c1 = some d1 ∧ hexDigit? c2 = some d2 ∧ hexDigit? c3 = some d3 ∧
        hexDigit? c4 = some d4 ∧ n = 4096 * d1 + 256 * d2 + 16 * d3 + d4 := by
  have hshift : ∀ d1 d2 d3 d4 : Nat, d1 <<< 12 + d2 <<< 8 + d3 <<< 4 + d4 <<< 0 =
      4096 * d1 + 256 * d2 + 16 * d3 + d4 := by
    intro d1 d2 d3 d4
    simp only [Nat.shiftLeft_eq]
    omega
  constructor
  · intro h
    unfold getCodepoint at h
    split at h
    · rename_i c1 c2 c3 c4 rest'
      simp only [Option.bind_eq_bind, Option.bind_eq_some_iff] at h
      obtain ⟨d1, h1, d2, h2, d3, h3, d4, h4, heq⟩ := h
      obtain ⟨rfl, rfl⟩ := Prod.mk.inj (Option.some.inj heq)
      exact ⟨c1, c2, c3, c4, d1, d2, d3, d4, rfl, h1, h2, h3, h4, hshift d1 d2 d3 d4⟩
    · cases h
  · intro hexists
    obtain ⟨c1, c2, c3, c4, d1, d2, d3, d4, rfl, h1, h2, h3, h4, rfl⟩ := hexists
    simp only [getCodepoint, h1, h2, h3, h4, Option.bind_eq_bind, Option.bind_some, hshift,
      Option.pure_def]

/-- Bits that do not overlap are added. -/
theorem or_eq_add (high : Nat) {low : Nat} (i a : Nat) (hhigh : high = 2 ^ i * a)
    (hlow : low < 2 ^ i) : high ||| low = low + high := by
  rw [hhigh, ← Nat.two_pow_add_eq_or_of_lt hlow, Nat.add_comm]

/-- The translation of a code point is its UTF-8 form. -/
theorem codepointBytes_toNat (c : Char) : codepointBytes c.toNat = String.utf8EncodeChar c := by
  have hvalid := toNat_valid c
  have hmask : ∀ n : Nat, n &&& 0x3F = n % 0x40 := fun n => Nat.and_two_pow_sub_one_eq_mod n 6
  have htail : ∀ n : Nat, 0x80 ||| n &&& 0x3F = n % 0x40 + 0x80 := by
    intro n
    rw [hmask, or_eq_add 0x80 7 1 rfl (by omega)]
  rw [utf8EncodeChar_eq]
  unfold codepointBytes
  simp only [htail, Nat.shiftRight_eq_div_pow, Nat.reducePow]
  by_cases h1 : c.toNat ≤ 0x7F
  · rw [if_pos (by omega), if_pos h1]
  · rw [if_neg (by omega), if_neg h1]
    by_cases h2 : c.toNat ≤ 0x7FF
    · rw [if_pos h2, if_pos h2, or_eq_add 0xC0 6 3 rfl (by omega),
        Nat.mod_eq_of_lt (a := c.toNat / 64) (by omega)]
    · rw [if_neg h2, if_neg h2]
      by_cases h3 : c.toNat ≤ 0xFFFF
      · rw [if_pos h3, if_pos h3, or_eq_add 0xE0 5 7 rfl (by omega),
          Nat.mod_eq_of_lt (a := c.toNat / 4096) (by omega)]
      · rw [if_neg h3, if_neg h3, or_eq_add 0xF0 4 15 rfl (by omega),
          Nat.mod_eq_of_lt (a := c.toNat / 262144) (by omega)]

/-- The ranges, by the number of the lead byte. -/
theorem continuationRanges_eq (lead : UInt8) :
    continuationRanges lead =
      if lead.toNat ≤ 0x7F then some []
      else if 0xC2 ≤ lead.toNat ∧ lead.toNat ≤ 0xDF then some [(0x80, 0xBF)]
      else if lead.toNat = 0xE0 then some [(0xA0, 0xBF), (0x80, 0xBF)]
      else if 0xE1 ≤ lead.toNat ∧ lead.toNat ≤ 0xEF ∧ lead.toNat ≠ 0xED then
        some [(0x80, 0xBF), (0x80, 0xBF)]
      else if lead.toNat = 0xED then some [(0x80, 0x9F), (0x80, 0xBF)]
      else if lead.toNat = 0xF0 then some [(0x90, 0xBF), (0x80, 0xBF), (0x80, 0xBF)]
      else if 0xF1 ≤ lead.toNat ∧ lead.toNat ≤ 0xF3 then
        some [(0x80, 0xBF), (0x80, 0xBF), (0x80, 0xBF)]
      else if lead.toNat = 0xF4 then some [(0x80, 0x8F), (0x80, 0xBF), (0x80, 0xBF)]
      else none := by
  simp only [continuationRanges, UInt8.le_iff_toNat_le, ← UInt8.toNat_inj, UInt8.reduceToNat,
    ne_eq]

/-- The table of `scan_string` is that of UTF-8. -/
theorem continuationRanges_iff {lead : UInt8} {added : Bytes} :
    (∃ ranges, continuationRanges lead = some ranges ∧
        List.Forall₂ (fun b range => range.1 ≤ b ∧ b ≤ range.2) added ranges) ↔
      Sequence (lead :: added) := by
  constructor
  · intro hexists
    obtain ⟨ranges, hranges, hall⟩ := hexists
    unfold continuationRanges at hranges
    split_ifs at hranges with h1 h2 h3 h4 h5 h6 h7 h8 <;>
      obtain rfl := Option.some.inj hranges
    · cases hall
      exact .one h1
    · obtain - | ⟨hb, - | -⟩ := hall
      exact .two h2.1 h2.2 hb
    · obtain - | ⟨hb, - | ⟨hc, - | -⟩⟩ := hall
      exact h3 ▸ .afterE0 hb.1 hb.2 hc
    · obtain - | ⟨hb, - | ⟨hc, - | -⟩⟩ := hall
      exact .three h4.1 h4.2.1 h4.2.2 hb hc
    · obtain - | ⟨hb, - | ⟨hc, - | -⟩⟩ := hall
      exact h5 ▸ .afterED hb.1 hb.2 hc
    · obtain - | ⟨hb, - | ⟨hc, - | ⟨hd, - | -⟩⟩⟩ := hall
      exact h6 ▸ .afterF0 hb.1 hb.2 hc hd
    · obtain - | ⟨hb, - | ⟨hc, - | ⟨hd, - | -⟩⟩⟩ := hall
      exact .four h7.1 h7.2 hb hc hd
    · obtain - | ⟨hb, - | ⟨hc, - | ⟨hd, - | -⟩⟩⟩ := hall
      exact h8 ▸ .afterF4 hb.1 hb.2 hc hd
  · intro h
    rw [continuationRanges_eq]
    cases h with
    | one ha =>
        exact ⟨_, if_pos (UInt8.le_iff_toNat_le.mp ha), .nil⟩
    | two hlow hhigh hb =>
        have h1 := UInt8.le_iff_toNat_le.mp hlow
        have h2 := UInt8.le_iff_toNat_le.mp hhigh
        simp only [UInt8.reduceToNat] at h1 h2
        rw [if_neg (by omega), if_pos ⟨h1, h2⟩]
        exact ⟨_, rfl, .cons hb .nil⟩
    | afterE0 hlow hhigh hc => exact ⟨_, rfl, .cons ⟨hlow, hhigh⟩ (.cons hc .nil)⟩
    | three hlow hhigh hne hb hc =>
        have h1 := UInt8.le_iff_toNat_le.mp hlow
        have h2 := UInt8.le_iff_toNat_le.mp hhigh
        have h3 : lead.toNat ≠ 0xED := fun heq => hne (UInt8.toNat_inj.mp heq)
        simp only [UInt8.reduceToNat] at h1 h2
        rw [if_neg (by omega), if_neg (by omega), if_neg (by omega), if_pos ⟨h1, h2, h3⟩]
        exact ⟨_, rfl, .cons hb (.cons hc .nil)⟩
    | afterED hlow hhigh hc => exact ⟨_, rfl, .cons ⟨hlow, hhigh⟩ (.cons hc .nil)⟩
    | afterF0 hlow hhigh hc hd =>
        exact ⟨_, rfl, .cons ⟨hlow, hhigh⟩ (.cons hc (.cons hd .nil))⟩
    | four hlow hhigh hb hc hd =>
        have h1 := UInt8.le_iff_toNat_le.mp hlow
        have h2 := UInt8.le_iff_toNat_le.mp hhigh
        simp only [UInt8.reduceToNat] at h1 h2
        rw [if_neg (by omega), if_neg (by omega), if_neg (by omega), if_neg (by omega),
          if_neg (by omega), if_neg (by omega), if_pos ⟨h1, h2⟩]
        exact ⟨_, rfl, .cons hb (.cons hc (.cons hd .nil))⟩
    | afterF4 hlow hhigh hc hd =>
        exact ⟨_, rfl, .cons ⟨hlow, hhigh⟩ (.cons hc (.cons hd .nil))⟩

/-! ## The grammar -/

/-- Four hexadecimal digits, and their number. -/
inductive HexQuad : Bytes → Nat → Prop
  | digits {c1 c2 c3 c4 : UInt8} {d1 d2 d3 d4 : Nat} : hexDigit? c1 = some d1 →
      hexDigit? c2 = some d2 → hexDigit? c3 = some d3 → hexDigit? c4 = some d4 →
      HexQuad [c1, c2, c3, c4] (4096 * d1 + 256 * d2 + 16 * d3 + d4)

/-- One character of a string literal, and the code point it stands for. -/
inductive Character : Bytes → Char → Prop
  | plain {c : Char} : 0x20 ≤ c.toNat → c ≠ '"' → c ≠ '\\' →
      Character (String.utf8EncodeChar c) c
  | escaped {letter byte : UInt8} {c : Char} : simpleEscape letter = some byte →
      c.toNat = byte.toNat → Character [backslash, letter] c
  | unicode {quad : Bytes} {c : Char} : HexQuad quad c.toNat →
      Character (backslash :: 117 :: quad) c
  | pair {high low : Bytes} {n k : Nat} {c : Char} : HexQuad high n → HexQuad low k →
      0xD800 ≤ n ∧ n ≤ 0xDBFF → 0xDC00 ≤ k ∧ k ≤ 0xDFFF →
      c.toNat = 0x10000 + (n - 0xD800) * 0x400 + (k - 0xDC00) →
      Character (backslash :: 117 :: (high ++ backslash :: 117 :: low)) c

/-- What stands between the quotes of a string literal, and the text it stands
for. -/
inductive StringBody : Bytes → List Char → Prop
  | nil : StringBody [] []
  | cons {t rest : Bytes} {c : Char} {chars : List Char} : Character t c →
      StringBody rest chars → StringBody (t ++ rest) (c :: chars)

/-- A hexadecimal digit is below 16. -/
theorem hexDigit?_lt {current : UInt8} {d : Nat} (h : hexDigit? current = some d) : d < 16 := by
  unfold hexDigit? at h
  split_ifs at h with h1 h2 h3
  all_goals
    obtain rfl := Option.some.inj h
    simp only [UInt8.le_iff_toNat_le, UInt8.reduceToNat] at *
    omega

/-- Four of them have 16 bits. -/
theorem HexQuad.lt {quad : Bytes} {n : Nat} (h : HexQuad quad n) : n < 0x10000 := by
  cases h with
  | digits h1 h2 h3 h4 =>
      have := hexDigit?_lt h1
      have := hexDigit?_lt h2
      have := hexDigit?_lt h3
      have := hexDigit?_lt h4
      omega

/-- The same in terms of the grammar. -/
theorem getCodepoint_iff {input rest : Bytes} {n : Nat} :
    getCodepoint input = some (n, rest) ↔ ∃ quad, HexQuad quad n ∧ input = quad ++ rest := by
  rw [getCodepoint_eq_some]
  constructor
  · intro hexists
    obtain ⟨c1, c2, c3, c4, d1, d2, d3, d4, rfl, h1, h2, h3, h4, rfl⟩ := hexists
    exact ⟨_, .digits h1 h2 h3 h4, rfl⟩
  · intro hexists
    obtain ⟨quad, hquad, rfl⟩ := hexists
    cases hquad with
    | digits h1 h2 h3 h4 => exact ⟨_, _, _, _, _, _, _, _, rfl, h1, h2, h3, h4, rfl⟩

/-! ## One character -/

/-- An escape of one letter stands for an ASCII byte. -/
theorem simpleEscape_lt {letter byte : UInt8} (h : simpleEscape letter = some byte) :
    byte.toNat ≤ 0x7F := by
  unfold simpleEscape at h
  split_ifs at h <;> obtain rfl := Option.some.inj h <;> decide

/-- The letter of a Unicode escape is none of them. -/
theorem simpleEscape_u : simpleEscape 117 = none := rfl

/-- The form of an ASCII code point. -/
theorem utf8EncodeChar_of_ascii {c : Char} {byte : UInt8} (h : c.toNat = byte.toNat)
    (hbyte : byte.toNat ≤ 0x7F) : String.utf8EncodeChar c = [byte] := by
  rw [utf8EncodeChar_eq, if_pos (by omega), ofNat_eq h]

/-- A Unicode escape does not end the string. -/
theorem scanUnicode_ne_closed (input rest : Bytes) : scanUnicode input ≠ .closed rest := by
  unfold scanUnicode
  cases getCodepoint input with
  | none => simp
  | some found =>
      obtain ⟨n, after⟩ := found
      simp only
      split_ifs
      · split
        · rename_i behind
          cases getCodepoint behind with
          | none => simp
          | some found' =>
              obtain ⟨k, after'⟩ := found'
              simp only
              split_ifs <;> simp
        · simp
      · simp
      · simp

/-- No escape does. -/
theorem scanEscape_ne_closed (input rest : Bytes) : scanEscape input ≠ .closed rest := by
  cases input with
  | nil => simp [scanEscape]
  | cons current input =>
      rw [scanEscape]
      split_ifs with hu
      · exact scanUnicode_ne_closed input rest
      · cases simpleEscape current <;> simp

/-- The closing quote is the quotation mark. -/
theorem scanCharacter_closed {input rest : Bytes} :
    scanCharacter input = .closed rest ↔ input = quoteMark :: rest := by
  cases input with
  | nil => simp [scanCharacter]
  | cons current input =>
      rw [scanCharacter, List.cons.injEq]
      by_cases hquote : current = quoteMark
      · simp [hquote]
      · rw [if_neg hquote]
        refine iff_of_false ?_ fun hparts => hquote hparts.1
        split_ifs with hescape hcontrol
        · exact scanEscape_ne_closed input rest
        · simp
        · cases continuationRanges current with
          | none => simp
          | some ranges =>
              simp only
              cases nextByteInRange ranges input <;> simp

/-- What is read as a Unicode escape is one of the grammar. -/
theorem character_of_scanUnicode {input bytes rest : Bytes}
    (h : scanUnicode input = .added bytes rest) :
    ∃ t c, Character (backslash :: 117 :: t) c ∧ input = t ++ rest ∧
      bytes = String.utf8EncodeChar c := by
  unfold scanUnicode at h
  cases hfirst : getCodepoint input with
  | none =>
      rw [hfirst] at h
      cases h
  | some found =>
      obtain ⟨n, after⟩ := found
      obtain ⟨quad, hquad, rfl⟩ := getCodepoint_iff.mp hfirst
      have hlt := hquad.lt
      rw [hfirst] at h
      simp only at h
      split_ifs at h with hhigh hlow
      · split at h
        · rename_i behind
          cases hsecond : getCodepoint behind with
          | none =>
              rw [hsecond] at h
              cases h
          | some found' =>
              obtain ⟨k, after'⟩ := found'
              obtain ⟨quad', hquad', rfl⟩ := getCodepoint_iff.mp hsecond
              rw [hsecond] at h
              simp only at h
              split_ifs at h with hrange
              obtain ⟨rfl, rfl⟩ := Scanned.added.inj h
              have hnumber : n <<< 10 + k - 0x35FDC00 =
                  0x10000 + (n - 0xD800) * 0x400 + (k - 0xDC00) := by
                rw [Nat.shiftLeft_eq]
                omega
              have hvalid : (n <<< 10 + k - 0x35FDC00).isValidChar := by
                rw [hnumber]
                unfold Nat.isValidChar
                omega
              have hchar := toNat_ofNat_of_valid hvalid
              refine ⟨_, Char.ofNat (n <<< 10 + k - 0x35FDC00),
                .pair hquad hquad' hhigh hrange (hchar.trans hnumber), by simp [backslash], ?_⟩
              rw [← codepointBytes_toNat, hchar]
        · cases h
      · obtain ⟨rfl, rfl⟩ := Scanned.added.inj h
        have hvalid : n.isValidChar := by
          unfold Nat.isValidChar
          omega
        have hchar := toNat_ofNat_of_valid hvalid
        refine ⟨quad, Char.ofNat n, .unicode (by rwa [hchar]), rfl, ?_⟩
        rw [← codepointBytes_toNat, hchar]

/-- So is what is read as any escape. -/
theorem character_of_scanEscape {input bytes rest : Bytes}
    (h : scanEscape input = .added bytes rest) :
    ∃ t c, Character (backslash :: t) c ∧ input = t ++ rest ∧
      bytes = String.utf8EncodeChar c := by
  cases input with
  | nil => cases h
  | cons current input =>
      rw [scanEscape] at h
      split_ifs at h with hu
      · obtain ⟨t, c, hchar, rfl, rfl⟩ := character_of_scanUnicode h
        exact ⟨117 :: t, c, hchar, by rw [hu]; rfl, rfl⟩
      · cases hletter : simpleEscape current with
        | none =>
            rw [hletter] at h
            cases h
        | some byte =>
            rw [hletter] at h
            obtain ⟨rfl, rfl⟩ := Scanned.added.inj h
            have hascii := simpleEscape_lt hletter
            have hchar : (Char.ofNat byte.toNat).toNat = byte.toNat :=
              toNat_ofNat_of_valid (.inl (by omega))
            exact ⟨[current], Char.ofNat byte.toNat, .escaped hletter hchar, rfl,
              (utf8EncodeChar_of_ascii hchar hascii).symm⟩

/-- What the scanner adds is the form of a character of the grammar. -/
theorem character_of_scanCharacter {input bytes rest : Bytes}
    (h : scanCharacter input = .added bytes rest) :
    ∃ t c, Character t c ∧ input = t ++ rest ∧ bytes = String.utf8EncodeChar c := by
  cases input with
  | nil => cases h
  | cons current input =>
      rw [scanCharacter] at h
      split_ifs at h with hquote hescape hcontrol
      · obtain ⟨t, c, hchar, rfl, rfl⟩ := character_of_scanEscape h
        exact ⟨backslash :: t, c, hchar, by rw [hescape]; rfl, rfl⟩
      · cases hranges : continuationRanges current with
        | none =>
            rw [hranges] at h
            cases h
        | some ranges =>
            cases hnext : nextByteInRange ranges input with
            | none =>
                rw [hranges] at h
                simp only [hnext] at h
                cases h
            | some found =>
                obtain ⟨added, left⟩ := found
                rw [hranges] at h
                simp only [hnext] at h
                obtain ⟨rfl, rfl⟩ := Scanned.added.inj h
                obtain ⟨rfl, hall⟩ := (nextByteInRange_eq_some ranges input).mp hnext
                obtain ⟨c, hc⟩ := sequence_iff.mp
                  (continuationRanges_iff.mp ⟨ranges, hranges, hall⟩)
                refine ⟨current :: added, c, ?_, rfl, hc.symm⟩
                rw [← hc]
                have hhead := head_utf8EncodeChar hc
                have hlow : 0x1F < current.toNat := UInt8.not_le.mp hcontrol
                refine .plain (by omega) (fun heq => ?_) fun heq => ?_
                · obtain ⟨hsame, -⟩ | ⟨hbig, -⟩ := hhead
                  · exact hquote (UInt8.toNat_inj.mp (by rw [← hsame, heq]; rfl))
                  · rw [heq] at hbig
                    revert hbig
                    decide
                · obtain ⟨hsame, -⟩ | ⟨hbig, -⟩ := hhead
                  · exact hescape (UInt8.toNat_inj.mp (by rw [← hsame, heq]; rfl))
                  · rw [heq] at hbig
                    revert hbig
                    decide

/-- A code point of the basic plane, but for the surrogates, is read. -/
theorem scanUnicode_of_unicode {quad : Bytes} {c : Char} (h : HexQuad quad c.toNat)
    (rest : Bytes) :
    scanUnicode (quad ++ rest) = .added (String.utf8EncodeChar c) rest := by
  have hvalid := toNat_valid c
  rw [scanUnicode, getCodepoint_iff.mpr ⟨quad, h, rfl⟩]
  simp only
  rw [if_neg (by omega), if_neg (by omega), codepointBytes_toNat]

/-- A pair of surrogates is read as the code point it stands for. -/
theorem scanUnicode_of_pair {high low : Bytes} {n k : Nat} {c : Char} (hhigh : HexQuad high n)
    (hlow : HexQuad low k) (hn : 0xD800 ≤ n ∧ n ≤ 0xDBFF) (hk : 0xDC00 ≤ k ∧ k ≤ 0xDFFF)
    (hc : c.toNat = 0x10000 + (n - 0xD800) * 0x400 + (k - 0xDC00)) (rest : Bytes) :
    scanUnicode (high ++ backslash :: 117 :: (low ++ rest)) =
      .added (String.utf8EncodeChar c) rest := by
  have hnumber : n <<< 10 + k - 0x35FDC00 = c.toNat := by
    rw [hc, Nat.shiftLeft_eq]
    omega
  rw [scanUnicode, getCodepoint_iff.mpr ⟨high, hhigh, rfl⟩]
  simp only [backslash]
  rw [if_pos hn, getCodepoint_iff.mpr ⟨low, hlow, rfl⟩]
  simp only
  rw [if_pos hk, hnumber, codepointBytes_toNat]

/-- The scanner takes the characters of the grammar. -/
theorem scanCharacter_of_character {t : Bytes} {c : Char} (h : Character t c) (rest : Bytes) :
    scanCharacter (t ++ rest) = .added (String.utf8EncodeChar c) rest := by
  cases h with
  | plain hlow hquote hescape =>
      have hsequence := sequence_utf8EncodeChar c
      cases hform : String.utf8EncodeChar c with
      | nil => rw [hform] at hsequence; cases hsequence
      | cons b tail =>
          rw [hform] at hsequence
          obtain ⟨ranges, hranges, hall⟩ := continuationRanges_iff.mpr hsequence
          have hhead := head_utf8EncodeChar hform
          have hnotQuote : b ≠ quoteMark := by
            intro heq
            subst heq
            obtain ⟨hsame, -⟩ | ⟨-, hbig⟩ := hhead
            · exact hquote (Char.toNat_inj.mp hsame)
            · revert hbig
              decide
          have hnotEscape : b ≠ backslash := by
            intro heq
            subst heq
            obtain ⟨hsame, -⟩ | ⟨-, hbig⟩ := hhead
            · exact hescape (Char.toNat_inj.mp hsame)
            · revert hbig
              decide
          have hnotControl : ¬ b ≤ 0x1F := by
            rw [UInt8.not_le, UInt8.lt_iff_toNat_lt]
            change 0x1F < b.toNat
            omega
          rw [List.cons_append, scanCharacter, if_neg hnotQuote, if_neg hnotEscape,
            if_neg hnotControl, hranges]
          simp only [(nextByteInRange_eq_some ranges (tail ++ rest)).mpr ⟨rfl, hall⟩]
  | @escaped letter byte c hletter hc =>
      have hu : letter ≠ 117 := by
        intro heq
        rw [heq, simpleEscape_u] at hletter
        cases hletter
      rw [List.cons_append, scanCharacter, if_neg (by decide), if_pos rfl, List.cons_append,
        List.nil_append, scanEscape, if_neg hu, hletter,
        utf8EncodeChar_of_ascii hc (simpleEscape_lt hletter)]
  | unicode hquad =>
      rw [List.cons_append, scanCharacter, if_neg (by decide), if_pos rfl, List.cons_append,
        scanEscape, if_pos rfl, scanUnicode_of_unicode hquad]
  | pair hhigh hlow hn hk hc =>
      rw [List.cons_append, scanCharacter, if_neg (by decide), if_pos rfl, List.cons_append,
        scanEscape, if_pos rfl, List.append_assoc, List.cons_append, List.cons_append,
        scanUnicode_of_pair hhigh hlow hn hk hc]

/-! ## The whole literal -/

/-- A character has a byte at least. -/
theorem length_utf8EncodeChar_pos (c : Char) : 0 < (String.utf8EncodeChar c).length := by
  rw [String.length_utf8EncodeChar]
  exact c.utf8Size_pos

/-- So has what is written for it. -/
theorem Character.length_pos {t : Bytes} {c : Char} (h : Character t c) : 0 < t.length := by
  cases h with
  | plain _ _ _ => exact length_utf8EncodeChar_pos c
  | escaped _ _ => simp
  | unicode _ => simp
  | pair _ _ _ _ _ => simp

/-- A character that is read takes bytes. -/
theorem length_of_scanCharacter {input bytes rest : Bytes}
    (h : scanCharacter input = .added bytes rest) : rest.length < input.length := by
  obtain ⟨t, c, hchar, rfl, -⟩ := character_of_scanCharacter h
  have hpos := hchar.length_pos
  rw [List.length_append]
  omega

/-- The loop of `scan_string`: the buffer it ends with, and what is left behind the
closing quote. -/
def scanString (token_buffer input : Bytes) : Option (Bytes × Bytes) :=
  match _hcharacter : scanCharacter input with
  | .failed => none
  | .closed rest => some (token_buffer, rest)
  | .added bytes rest => scanString (token_buffer ++ bytes) rest
termination_by input.length
decreasing_by exact length_of_scanCharacter _hcharacter

/-- A quotation mark ends the string. -/
theorem scanString_closed (token_buffer rest : Bytes) :
    scanString token_buffer (quoteMark :: rest) = some (token_buffer, rest) := by
  rw [scanString]
  split
  · rename_i hfailed
    rw [scanCharacter_closed.mpr rfl] at hfailed
    cases hfailed
  · rename_i rest' hclosed
    obtain ⟨-, rfl⟩ := List.cons.inj (scanCharacter_closed.mp hclosed)
    rfl
  · rename_i hadded
    rw [scanCharacter_closed.mpr rfl] at hadded
    cases hadded

/-- A character that is read goes to the buffer. -/
theorem scanString_added {input bytes rest : Bytes}
    (h : scanCharacter input = .added bytes rest) (token_buffer : Bytes) :
    scanString token_buffer input = scanString (token_buffer ++ bytes) rest := by
  rw [scanString]
  split
  · rename_i hfailed
    rw [h] at hfailed
    cases hfailed
  · rename_i hclosed
    rw [h] at hclosed
    cases hclosed
  · rename_i bytes' rest' hadded
    rw [h] at hadded
    obtain ⟨rfl, rfl⟩ := Scanned.added.inj hadded
    rfl

/-- A string literal of the grammar is read to its end. -/
theorem scanString_of_stringBody {body : Bytes} {chars : List Char}
    (h : StringBody body chars) (rest : Bytes) :
    ∀ token_buffer, scanString token_buffer (body ++ quoteMark :: rest) =
      some (token_buffer ++ encode chars, rest) := by
  induction h with
  | nil =>
      intro token_buffer
      rw [List.nil_append, scanString_closed, encode_nil, List.append_nil]
  | cons hchar _ ih =>
      intro token_buffer
      rw [List.append_assoc, scanString_added (scanCharacter_of_character hchar _), ih,
        List.append_assoc, encode_cons]

/-- What is read is a string literal of the grammar. -/
theorem stringBody_of_scanString :
    ∀ (n : Nat) (token_buffer input s rest : Bytes), input.length ≤ n →
      scanString token_buffer input = some (s, rest) →
      ∃ body chars, input = body ++ quoteMark :: rest ∧ StringBody body chars ∧
        s = token_buffer ++ encode chars := by
  intro n
  induction n with
  | zero =>
      intro token_buffer input s rest hlength h
      obtain rfl := List.eq_nil_of_length_eq_zero (Nat.le_zero.mp hlength)
      rw [scanString] at h
      cases h
  | succ n ih =>
      intro token_buffer input s rest hlength h
      cases hcharacter : scanCharacter input with
      | failed =>
          rw [scanString] at h
          split at h
          · cases h
          · rename_i hclosed
            rw [hcharacter] at hclosed
            cases hclosed
          · rename_i hadded
            rw [hcharacter] at hadded
            cases hadded
      | closed rest' =>
          obtain rfl := scanCharacter_closed.mp hcharacter
          rw [scanString_closed] at h
          obtain ⟨rfl, rfl⟩ := Prod.mk.inj (Option.some.inj h)
          exact ⟨[], [], rfl, .nil, by simp⟩
      | added bytes rest' =>
          have hlt := length_of_scanCharacter hcharacter
          rw [scanString_added hcharacter] at h
          obtain ⟨body, chars, rfl, hbody, rfl⟩ := ih _ _ _ _ (by omega) h
          obtain ⟨t, c, hchar, rfl, rfl⟩ := character_of_scanCharacter hcharacter
          exact ⟨t ++ body, c :: chars, by rw [List.append_assoc], .cons hchar hbody,
            by rw [encode_cons, List.append_assoc]⟩

/-- **String literals are read exactly.**  The scanner succeeds on what begins with
a string literal of the grammar, and gathers the UTF-8 form of its text. -/
theorem scanString_iff {input s rest : Bytes} :
    scanString [] input = some (s, rest) ↔
      ∃ body chars, input = body ++ quoteMark :: rest ∧ StringBody body chars ∧
        s = encode chars := by
  constructor
  · intro h
    exact stringBody_of_scanString input.length [] input s rest (Nat.le_refl _) h
  · intro hexists
    obtain ⟨body, chars, rfl, hbody, rfl⟩ := hexists
    rw [scanString_of_stringBody hbody, List.nil_append]

end JsonText
