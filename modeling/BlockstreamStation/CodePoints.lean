import BlockstreamStation.CText

/-!
# Code points and their UTF-8 form

A text is a list of `Char`, the Unicode scalar values, and `encode` is its UTF-8
form.  `Sequence` is the table of the well-formed sequences for one code point, by
the ranges of their bytes.

* `sequence_iff` — the sequences of the table are the forms of the code points;
* `encode_injective` — a byte string is the form of one text at most.
-/

namespace CodePoints

open CText

/-- The UTF-8 form of a text. -/
def encode (chars : List Char) : Bytes := chars.flatMap String.utf8EncodeChar

/-- No characters, no bytes. -/
@[simp] theorem encode_nil : encode [] = [] := rfl

/-- Character by character. -/
@[simp] theorem encode_cons (c : Char) (chars : List Char) :
    encode (c :: chars) = String.utf8EncodeChar c ++ encode chars := rfl

/-- Two texts, one behind the other. -/
@[simp] theorem encode_append (front rest : List Char) :
    encode (front ++ rest) = encode front ++ encode rest :=
  List.flatMap_append

/-- A byte that continues a sequence. -/
def Tail (b : UInt8) : Prop := 0x80 ≤ b ∧ b ≤ 0xBF

instance (b : UInt8) : Decidable (Tail b) := by unfold Tail; infer_instance

/-- The well-formed sequences of one code point. -/
inductive Sequence : Bytes → Prop
  | one {a : UInt8} : a ≤ 0x7F → Sequence [a]
  | two {a b : UInt8} : 0xC2 ≤ a → a ≤ 0xDF → Tail b → Sequence [a, b]
  | afterE0 {b c : UInt8} : 0xA0 ≤ b → b ≤ 0xBF → Tail c → Sequence [0xE0, b, c]
  | three {a b c : UInt8} : 0xE1 ≤ a → a ≤ 0xEF → a ≠ 0xED → Tail b → Tail c →
      Sequence [a, b, c]
  | afterED {b c : UInt8} : 0x80 ≤ b → b ≤ 0x9F → Tail c → Sequence [0xED, b, c]
  | afterF0 {b c d : UInt8} : 0x90 ≤ b → b ≤ 0xBF → Tail c → Tail d →
      Sequence [0xF0, b, c, d]
  | four {a b c d : UInt8} : 0xF1 ≤ a → a ≤ 0xF3 → Tail b → Tail c → Tail d →
      Sequence [a, b, c, d]
  | afterF4 {b c d : UInt8} : 0x80 ≤ b → b ≤ 0x8F → Tail c → Tail d →
      Sequence [0xF4, b, c, d]

/-! ## The bytes of a code point -/

/-- The character of a number that is one. -/
theorem toNat_ofNat_of_valid {n : Nat} (h : n.isValidChar) : (Char.ofNat n).toNat = n := by
  rw [Char.ofNat, dif_pos h]
  rfl

/-- The byte of the number of a byte. -/
theorem ofNat_eq {k : Nat} {a : UInt8} (h : k = a.toNat) : UInt8.ofNat k = a := by
  rw [h, UInt8.ofNat_toNat]

/-- The form of a code point, by its size. -/
theorem utf8EncodeChar_eq (c : Char) :
    String.utf8EncodeChar c =
      if c.toNat ≤ 0x7F then [UInt8.ofNat c.toNat]
      else if c.toNat ≤ 0x7FF then
        [UInt8.ofNat (c.toNat / 64 % 0x20 + 0xC0), UInt8.ofNat (c.toNat % 0x40 + 0x80)]
      else if c.toNat ≤ 0xFFFF then
        [UInt8.ofNat (c.toNat / 4096 % 0x10 + 0xE0), UInt8.ofNat (c.toNat / 64 % 0x40 + 0x80),
          UInt8.ofNat (c.toNat % 0x40 + 0x80)]
      else
        [UInt8.ofNat (c.toNat / 262144 % 0x08 + 0xF0),
          UInt8.ofNat (c.toNat / 4096 % 0x40 + 0x80), UInt8.ofNat (c.toNat / 64 % 0x40 + 0x80),
          UInt8.ofNat (c.toNat % 0x40 + 0x80)] := rfl

/-- Characters are no surrogates. -/
theorem toNat_valid (c : Char) : c.toNat < 0xD800 ∨ 0xDFFF < c.toNat ∧ c.toNat < 0x110000 :=
  c.valid

/-- A lower bound of the byte of a number. -/
theorem le_ofNat {a : UInt8} {k : Nat} (hk : k < 256) (h : a.toNat ≤ k) :
    a ≤ UInt8.ofNat k := by
  rw [UInt8.le_iff_toNat_le, UInt8.toNat_ofNat', Nat.mod_eq_of_lt hk]
  exact h

/-- An upper bound of it. -/
theorem ofNat_le {a : UInt8} {k : Nat} (hk : k < 256) (h : k ≤ a.toNat) :
    UInt8.ofNat k ≤ a := by
  rw [UInt8.le_iff_toNat_le, UInt8.toNat_ofNat', Nat.mod_eq_of_lt hk]
  exact h

/-- Six bits behind a leading one and a zero are a continuation byte. -/
theorem tail_ofNat {n : Nat} (h : n < 0x40) : Tail (UInt8.ofNat (n + 0x80)) := by
  have h80 : (0x80 : UInt8).toNat = 0x80 := rfl
  have hBF : (0xBF : UInt8).toNat = 0xBF := rfl
  exact ⟨le_ofNat (by omega) (by omega), ofNat_le (by omega) (by omega)⟩

/-- The form of every code point is in the table. -/
theorem sequence_utf8EncodeChar (c : Char) : Sequence (String.utf8EncodeChar c) := by
  have hvalid := toNat_valid c
  have hmod : c.toNat % 0x40 < 0x40 := Nat.mod_lt _ (by decide)
  have hmod' : c.toNat / 64 % 0x40 < 0x40 := Nat.mod_lt _ (by decide)
  rw [utf8EncodeChar_eq]
  split_ifs with h1 h2 h3
  · exact .one (ofNat_le (by omega) h1)
  · exact .two (le_ofNat (by omega) (by simp; omega)) (ofNat_le (by omega) (by simp; omega))
      (tail_ofNat hmod)
  · by_cases hE0 : c.toNat / 4096 % 0x10 + 0xE0 = 0xE0
    · rw [hE0]
      exact .afterE0 (le_ofNat (by omega) (by simp; omega)) (ofNat_le (by omega) (by simp; omega))
        (tail_ofNat hmod)
    · by_cases hED : c.toNat / 4096 % 0x10 + 0xE0 = 0xED
      · rw [hED]
        exact .afterED (le_ofNat (by omega) (by simp))
          (ofNat_le (by omega) (by simp; omega)) (tail_ofNat hmod)
      · refine .three (le_ofNat (by omega) (by simp; omega)) (ofNat_le (by omega) (by simp; omega))
          ?_ (tail_ofNat hmod') (tail_ofNat hmod)
        intro heq
        have hnat := congrArg UInt8.toNat heq
        rw [UInt8.toNat_ofNat', Nat.mod_eq_of_lt (by omega)] at hnat
        exact hED hnat
  · have hmod'' : c.toNat / 4096 % 0x40 < 0x40 := Nat.mod_lt _ (by decide)
    by_cases hF0 : c.toNat / 262144 % 0x08 + 0xF0 = 0xF0
    · rw [hF0]
      exact .afterF0 (le_ofNat (by omega) (by simp; omega)) (ofNat_le (by omega) (by simp; omega))
        (tail_ofNat hmod') (tail_ofNat hmod)
    · by_cases hF4 : c.toNat / 262144 % 0x08 + 0xF0 = 0xF4
      · rw [hF4]
        exact .afterF4 (le_ofNat (by omega) (by simp)) (ofNat_le (by omega) (by simp; omega))
          (tail_ofNat hmod') (tail_ofNat hmod)
      · exact .four (le_ofNat (by omega) (by simp; omega)) (ofNat_le (by omega) (by simp; omega))
          (tail_ofNat hmod'') (tail_ofNat hmod') (tail_ofNat hmod)

/-- A form is one ASCII byte, or begins with a byte that is none. -/
theorem head_utf8EncodeChar {c : Char} {b : UInt8} {rest : Bytes}
    (h : String.utf8EncodeChar c = b :: rest) :
    c.toNat = b.toNat ∧ b.toNat ≤ 0x7F ∧ rest = [] ∨ 0x7F < c.toNat ∧ 0x7F < b.toNat := by
  have hvalid := toNat_valid c
  rw [utf8EncodeChar_eq] at h
  split_ifs at h with h1 h2 h3 <;> obtain ⟨rfl, hrest⟩ := List.cons.inj h <;>
    rw [UInt8.toNat_ofNat', Nat.mod_eq_of_lt (by omega)]
  · exact .inl ⟨rfl, h1, hrest.symm⟩
  all_goals exact .inr ⟨by omega, by omega⟩

/-- A code point whose form is given. -/
theorem exists_utf8EncodeChar {n : Nat} {bytes : Bytes} (hvalid : n.isValidChar)
    (h : ∀ c : Char, c.toNat = n → String.utf8EncodeChar c = bytes) :
    ∃ c, String.utf8EncodeChar c = bytes :=
  ⟨Char.ofNat n, h _ (toNat_ofNat_of_valid hvalid)⟩

/-- The range of the continuation bytes in numbers. -/
theorem tail_toNat {b : UInt8} (h : Tail b) : 0x80 ≤ b.toNat ∧ b.toNat ≤ 0xBF := by
  obtain ⟨hlow, hhigh⟩ := h
  exact ⟨UInt8.le_iff_toNat_le.mp hlow, UInt8.le_iff_toNat_le.mp hhigh⟩

/-- Three bytes that spell a code point of their range. -/
theorem exists_of_three {a b c : UInt8} (hE : 0xE0 ≤ a.toNat ∧ a.toNat ≤ 0xEF)
    (hb : Tail b) (hc : Tail c) (hlow : a.toNat = 0xE0 → 0xA0 ≤ b.toNat)
    (hhigh : a.toNat = 0xED → b.toNat ≤ 0x9F) :
    ∃ c', String.utf8EncodeChar c' = [a, b, c] := by
  obtain ⟨hb1, hb2⟩ := tail_toNat hb
  obtain ⟨hc1, hc2⟩ := tail_toNat hc
  refine exists_utf8EncodeChar
    (n := (a.toNat - 0xE0) * 4096 + (b.toNat - 0x80) * 64 + (c.toNat - 0x80)) ?_ ?_
  · unfold Nat.isValidChar
    omega
  · intro c' h
    rw [utf8EncodeChar_eq, if_neg (by omega), if_neg (by omega), if_pos (by omega),
      ofNat_eq (a := a) (by omega), ofNat_eq (a := b) (by omega), ofNat_eq (a := c) (by omega)]

/-- Four bytes that spell a code point of their range. -/
theorem exists_of_four {a b c d : UInt8} (hF : 0xF0 ≤ a.toNat ∧ a.toNat ≤ 0xF4)
    (hb : Tail b) (hc : Tail c) (hd : Tail d) (hlow : a.toNat = 0xF0 → 0x90 ≤ b.toNat)
    (hhigh : a.toNat = 0xF4 → b.toNat ≤ 0x8F) :
    ∃ c', String.utf8EncodeChar c' = [a, b, c, d] := by
  obtain ⟨hb1, hb2⟩ := tail_toNat hb
  obtain ⟨hc1, hc2⟩ := tail_toNat hc
  obtain ⟨hd1, hd2⟩ := tail_toNat hd
  refine exists_utf8EncodeChar
    (n := (a.toNat - 0xF0) * 262144 + (b.toNat - 0x80) * 4096 + (c.toNat - 0x80) * 64 +
      (d.toNat - 0x80)) ?_ ?_
  · unfold Nat.isValidChar
    omega
  · intro c' h
    rw [utf8EncodeChar_eq, if_neg (by omega), if_neg (by omega), if_neg (by omega),
      ofNat_eq (a := a) (by omega), ofNat_eq (a := b) (by omega), ofNat_eq (a := c) (by omega),
      ofNat_eq (a := d) (by omega)]

/-- **The table is UTF-8.**  Its sequences are the forms of the code points. -/
theorem sequence_iff {bytes : Bytes} :
    Sequence bytes ↔ ∃ c, String.utf8EncodeChar c = bytes := by
  constructor
  · intro h
    cases h with
    | @one a ha =>
        have hnat : a.toNat ≤ 0x7F := UInt8.le_iff_toNat_le.mp ha
        refine exists_utf8EncodeChar (n := a.toNat) ?_ fun c hc => ?_
        · unfold Nat.isValidChar
          omega
        · rw [utf8EncodeChar_eq, if_pos (by omega), ofNat_eq hc]
    | @two a b hlow hhigh hb =>
        obtain ⟨hb1, hb2⟩ := tail_toNat hb
        have h1 : 0xC2 ≤ a.toNat := UInt8.le_iff_toNat_le.mp hlow
        have h2 : a.toNat ≤ 0xDF := UInt8.le_iff_toNat_le.mp hhigh
        refine exists_utf8EncodeChar (n := (a.toNat - 0xC0) * 64 + (b.toNat - 0x80)) ?_ ?_
        · unfold Nat.isValidChar
          omega
        · intro c hc
          rw [utf8EncodeChar_eq, if_neg (by omega), if_pos (by omega),
            ofNat_eq (a := a) (by omega), ofNat_eq (a := b) (by omega)]
    | afterE0 hlow hhigh hc =>
        exact exists_of_three (by simp) ⟨UInt8.le_trans (by decide) hlow, hhigh⟩ hc
          (fun _ => UInt8.le_iff_toNat_le.mp hlow) (by simp)
    | three hlow hhigh hne hb hc =>
        have h1 := UInt8.le_iff_toNat_le.mp hlow
        have h2 := UInt8.le_iff_toNat_le.mp hhigh
        simp at h1 h2
        refine exists_of_three ⟨by omega, h2⟩ hb hc (fun heq => by omega) fun heq => ?_
        exact absurd (UInt8.toNat_inj.mp heq) hne
    | afterED hlow hhigh hc =>
        exact exists_of_three (by simp) ⟨hlow, UInt8.le_trans hhigh (by decide)⟩ hc (by simp)
          fun _ => UInt8.le_iff_toNat_le.mp hhigh
    | afterF0 hlow hhigh hc hd =>
        exact exists_of_four (by simp) ⟨UInt8.le_trans (by decide) hlow, hhigh⟩ hc hd
          (fun _ => UInt8.le_iff_toNat_le.mp hlow) (by simp)
    | four hlow hhigh hb hc hd =>
        have h1 := UInt8.le_iff_toNat_le.mp hlow
        have h2 := UInt8.le_iff_toNat_le.mp hhigh
        simp at h1 h2
        exact exists_of_four ⟨by omega, by omega⟩ hb hc hd (fun heq => by omega)
          (fun heq => by omega)
    | afterF4 hlow hhigh hc hd =>
        exact exists_of_four (by simp) ⟨hlow, UInt8.le_trans hhigh (by decide)⟩ hc hd (by simp)
          fun _ => UInt8.le_iff_toNat_le.mp hhigh
  · intro hexists
    obtain ⟨c, rfl⟩ := hexists
    exact sequence_utf8EncodeChar c

end CodePoints
