import BlockstreamStation.Buffers
import BlockstreamStation.CText

/-!
# Numerals and cut strings

Two string functions of `server/cgi-bin/general.h`.  `myitoa` writes the digits of
a number from the last one on, a sign behind them, and reverses the buffer in
place; it ends with the shortest numeral of the number (`myitoa_eq`).
`trim_sring_at_str2` cuts a string where another one occurs in it first.  Its
position comes from `my_strstr`, which returns 0 both for the beginning and for no
occurrence, and is then decremented before it is tested: an occurrence at the
first or the second byte is not cut off (`trimSringAtStr2_of_first`).
-/

namespace CgiBin

open CText Buffers

/-! ## Numerals -/

/-- The table of the digits, with the terminator of its literal. -/
def dig : Bytes := text "0123456789abcdefghijklmnopqrstuvwxyz" ++ [0]

/-- The `do` loop, with `rounds` rounds left: the buffer and the number of digits.
`none` is a digit behind the table, a byte behind the buffer, or a loop that is not
over. -/
def digitLoop (radix : BitVec 32) :
    Nat → BitVec 32 → Bytes → Nat → Option (Bytes × Nat)
  | 0, _, _, _ => none
  | rounds + 1, v, str, n => do
      let c ← dig[(v % radix).toNat]?
      let str ← write str n c
      if v / radix = 0 then some (str, n + 1)
      else digitLoop radix rounds (v / radix) str (n + 1)

/-- The condition under which a sign is written. -/
def isNegative (value radix : BitVec 32) : Bool := radix = 10 ∧ value.toInt < 0

/-- `myitoa`, with the buffer `str` before and after.  A number of 32 bits has at
most 32 digits from radix 2 on; the remainder by 0 is undefined. -/
def myitoa (value : BitVec 32) (str : Bytes) (radix : BitVec 32) : Option Bytes :=
  if radix = 0 then none
  else do
    let v := if isNegative value radix then -value else value
    let (str, n) ← digitLoop radix 32 v str 0
    let (str, n) ←
      if isNegative value radix then do
        let str ← write str n 45
        some (str, n + 1)
      else
        some (str, n)
    let str ← write str n 0
    reverseLoop str 0 (n - 1)

theorem dig_eq : ∀ d < 36, dig[d]? = some (digit d) := by decide

section Digits

variable {radix : BitVec 32} (hradix : 2 ≤ radix.toNat) (hle : radix.toNat ≤ 36)

include hradix hle in
/-- A round writes the last digit and goes on with the others. -/
theorem digitLoop_succ (rounds : Nat) (v : BitVec 32) (str : Bytes) (n : Nat) :
    digitLoop radix (rounds + 1) v str n =
      (write str n (digit (v.toNat % radix.toNat))).bind fun str =>
        if v.toNat / radix.toNat = 0 then some (str, n + 1)
        else digitLoop radix rounds (v / radix) str (n + 1) := by
  have hmod : v.toNat % radix.toNat < 36 :=
    Nat.lt_of_lt_of_le (Nat.mod_lt _ (by omega)) hle
  have hdiv : v / radix = 0 ↔ v.toNat / radix.toNat = 0 := by
    rw [← BitVec.toNat_udiv]
    exact ⟨fun h => by rw [h]; rfl, fun h => BitVec.eq_of_toNat_eq h⟩
  simp only [digitLoop, BitVec.toNat_umod, dig_eq _ hmod, hdiv, Option.bind_eq_bind,
    Option.bind_some]

include hradix hle in
/-- The last round: the number is a single digit. -/
theorem digitLoop_last {v : BitVec 32} (hlast : v.toNat / radix.toNat = 0) (rounds : Nat)
    (str : Bytes) (n : Nat) :
    digitLoop radix (rounds + 1) v str n =
      (writeAll str n (numeral radix.toNat v.toNat).reverse).map fun str =>
        (str, n + (numeral radix.toNat v.toNat).length) := by
  rw [digitLoop_succ hradix hle, ← List.length_reverse, reverse_numeral hradix, if_pos hlast]
  simp only [hlast, if_true, writeAll_singleton, List.length_singleton, Option.map_eq_bind,
    Function.comp_def]

include hradix hle in
/-- The loop writes the numeral backwards. -/
theorem digitLoop_eq (rounds : Nat) :
    ∀ (v : BitVec 32) (str : Bytes) (n : Nat), v.toNat < radix.toNat ^ (rounds + 1) →
      digitLoop radix (rounds + 1) v str n =
        (writeAll str n (numeral radix.toNat v.toNat).reverse).map fun str =>
          (str, n + (numeral radix.toNat v.toNat).length) := by
  induction rounds with
  | zero =>
      intro v str n hv
      rw [Nat.zero_add, Nat.pow_one] at hv
      exact digitLoop_last hradix hle (Nat.div_eq_of_lt hv) 0 str n
  | succ rounds ih =>
      intro v str n hv
      by_cases hlast : v.toNat / radix.toNat = 0
      · exact digitLoop_last hradix hle hlast (rounds + 1) str n
      · have hrest : (v / radix).toNat < radix.toNat ^ (rounds + 1) := by
          rw [BitVec.toNat_udiv, Nat.div_lt_iff_lt_mul (by omega), ← Nat.pow_succ]
          exact hv
        have hcount : ∀ k, n + 1 + k = n + (k + 1) := fun k => by omega
        rw [digitLoop_succ hradix hle, ← List.length_reverse, reverse_numeral hradix]
        simp only [writeAll, hlast, if_false, Option.bind_eq_bind, Option.map_bind,
          Function.comp_def, List.length_cons, List.length_reverse, ih _ _ _ hrest,
          BitVec.toNat_udiv, hcount]

end Digits

/-- The sign that is written. -/
def sign (value radix : BitVec 32) : Bytes := if isNegative value radix then [45] else []

/-- The number whose digits are written. -/
def magnitude (value radix : BitVec 32) : Nat :=
  if isNegative value radix then value.toInt.natAbs else value.toNat

/-- Negation modulo 2^32 gives the absolute value, that of the least number too. -/
theorem toNat_negated (value radix : BitVec 32) :
    (if isNegative value radix then -value else value).toNat = magnitude value radix := by
  unfold magnitude
  split
  · rename_i hnegative
    have hsign : value.toInt < 0 := (of_decide_eq_true hnegative).2
    have hlt := value.isLt
    rw [BitVec.toInt_eq_toNat_cond] at hsign ⊢
    rw [BitVec.toNat_neg]
    split at hsign <;> omega
  · rfl

section Written

variable {value radix : BitVec 32} (hradix : 2 ≤ radix.toNat) (hle : radix.toNat ≤ 36)

include hradix hle in
/-- The digits from the last one on, the sign and the terminator are written one
behind the other; then all but the terminator are reversed. -/
theorem myitoa_writes (str : Bytes) :
    myitoa value str radix =
      (writeAll str 0 ((numeral radix.toNat (magnitude value radix)).reverse ++
        sign value radix ++ [0])).bind fun str =>
          reverseLoop str 0 (((numeral radix.toNat (magnitude value radix)).reverse ++
            sign value radix).length - 1) := by
  have hne : radix ≠ 0 := by
    intro hzero
    rw [hzero] at hradix
    exact absurd hradix (by decide)
  have hdigits : (if isNegative value radix then -value else value).toNat < radix.toNat ^ 32 :=
    Nat.lt_of_lt_of_le (BitVec.isLt _) (Nat.pow_le_pow_left hradix 32)
  have hloop := digitLoop_eq hradix hle 31 _ str 0 hdigits
  rw [toNat_negated] at hloop
  rw [myitoa, if_neg hne, writeAll_append, writeAll_append, sign]
  simp only [hloop]
  cases isNegative value radix with
  | true =>
      simp only [if_true, Option.bind_eq_bind, Option.bind_map, Option.bind_assoc,
        Function.comp_def, Option.bind_some, writeAll_singleton, List.length_append,
        List.length_singleton, List.length_reverse, Nat.zero_add]
  | false => simp [Option.bind_map, Option.bind_assoc, writeAll]

theorem reverse_sign (value radix : BitVec 32) : (sign value radix).reverse = sign value radix := by
  unfold sign
  split <;> rfl

include hradix hle in
/-- `myitoa` on a buffer with room for the sign, the numeral and a terminator. -/
theorem myitoa_eq {str : Bytes}
    (hroom : (sign value radix ++ numeral radix.toNat (magnitude value radix)).length <
      str.length) :
    ∃ rest, myitoa value str radix =
      some (sign value radix ++ numeral radix.toNat (magnitude value radix) ++ 0 :: rest) := by
  have hback : ((numeral radix.toNat (magnitude value radix)).reverse ++ sign value radix).reverse =
      sign value radix ++ numeral radix.toNat (magnitude value radix) := by
    rw [List.reverse_append, List.reverse_reverse, reverse_sign]
  have hne : (numeral radix.toNat (magnitude value radix)).reverse ++ sign value radix ≠ [] := by
    simp [numeral_ne_nil]
  have hfits : ((numeral radix.toNat (magnitude value radix)).reverse ++ sign value radix ++
      [0]).length ≤ str.length := by
    simp only [List.length_append, List.length_reverse, List.length_singleton] at hroom ⊢
    omega
  refine ⟨str.drop ((numeral radix.toNat (magnitude value radix)).reverse ++ sign value radix ++
    [0]).length, ?_⟩
  rw [myitoa_writes hradix hle, writeAll_zero hfits, Option.bind_some, List.append_assoc,
    reverseLoop_eq hne, hback, List.singleton_append]

include hradix hle in
theorem zero_not_mem_written :
    0 ∉ sign value radix ++ numeral radix.toNat (magnitude value radix) := by
  intro hzero
  rcases List.mem_append.mp hzero with hsign | hdigit
  · revert hsign
    unfold sign
    split <;> decide
  · obtain ⟨d, hd, hdigit⟩ := numeral_alphabet hradix _ 0 hdigit
    exact digit_ne_zero d (by omega) hdigit.symm

end Written

/-- A numeral read back, with the sign in front of it. -/
def readBack (radix : Nat) : Bytes → Int
  | 45 :: digits => -numeralValue radix digits
  | digits => numeralValue radix digits

theorem digit_ne_minus : ∀ d < 36, digit d ≠ 45 := by decide

/-- Without a sign the digits are read. -/
theorem readBack_numeral {radix : Nat} (htwo : 2 ≤ radix) (hle : radix ≤ 36) (n : Nat) :
    readBack radix (numeral radix n) = n := by
  have hvalue := numeralValue_numeral htwo hle n
  rw [readBack]
  · rw [hvalue]
  · intro digits hminus
    obtain ⟨d, hd, hdigit⟩ := numeral_alphabet htwo n 45 (by rw [hminus]; exact List.mem_cons_self)
    exact digit_ne_minus d (by omega) hdigit.symm

theorem readBack_written (value radix : BitVec 32) (htwo : 2 ≤ radix.toNat)
    (hle : radix.toNat ≤ 36) :
    readBack radix.toNat (sign value radix ++ numeral radix.toNat (magnitude value radix)) =
      if radix = 10 then value.toInt else value.toNat := by
  unfold sign magnitude
  by_cases hnegative : isNegative value radix
  · obtain ⟨hten, hsign⟩ := of_decide_eq_true hnegative
    rw [if_pos hnegative, if_pos hnegative, if_pos hten, List.singleton_append, readBack,
      numeralValue_numeral htwo hle]
    omega
  · rw [if_neg hnegative, if_neg hnegative, List.nil_append, readBack_numeral htwo hle]
    split
    · rename_i hten
      have hsign : ¬ value.toInt < 0 := fun h => hnegative (decide_eq_true ⟨hten, h⟩)
      rw [BitVec.toInt_eq_toNat_cond] at hsign ⊢
      have hlt := value.isLt
      split at hsign <;> omega
    · rfl

/-- **The canonical numeral.**  For every number and every radix from 2 to 36,
`myitoa` leaves in any buffer with room for it the shortest numeral of the absolute
value behind a sign, when the radix is 10 and the number is negative, and of the
number modulo 2^32 otherwise.  Read back, it is the number, or the number modulo
2^32. -/
theorem myitoa_canonical (value radix : BitVec 32)
    (hradix : 2 ≤ radix.toNat ∧ radix.toNat ≤ 36) :
    ∃ digits, Canonical radix.toNat
        (if radix = 10 ∧ value.toInt < 0 then value.toInt.natAbs else value.toNat) digits ∧
      (∀ str, (sign value radix ++ digits).length < str.length →
        ∃ after, myitoa value str radix = some after ∧
          cstr after = sign value radix ++ digits) ∧
      readBack radix.toNat (sign value radix ++ digits) =
        if radix = 10 then value.toInt else value.toNat := by
  obtain ⟨htwo, hle⟩ := hradix
  have hcanonical := canonical_numeral htwo hle (magnitude value radix)
  refine ⟨numeral radix.toNat (magnitude value radix), ?_, fun str hroom => ?_, ?_⟩
  · simpa [magnitude, isNegative] using hcanonical
  · obtain ⟨rest, hwritten⟩ := myitoa_eq htwo hle hroom
    refine ⟨_, hwritten, ?_⟩
    rw [cstr_append (zero_not_mem_written htwo hle)]
    simp [cstr]
  · exact readBack_written value radix htwo hle

/-- The least number, whose negation is itself. -/
theorem myitoa_canonical_least :
    ∃ digits, Canonical 10 2147483648 digits ∧
      (∀ str, (text "-" ++ digits).length < str.length →
        ∃ after, myitoa (BitVec.intMin 32) str 10 = some after ∧
          cstr after = text "-" ++ digits) ∧
      readBack 10 (text "-" ++ digits) = -2147483648 :=
  myitoa_canonical (BitVec.intMin 32) 10 (by decide)

example : (myitoa (BitVec.intMin 32) (List.replicate 12 1) 10).map cstr =
    some (text "-2147483648") := by
  decide +kernel

/-! ## Cutting -/

/-- `strstr`: where the second string occurs in the first one first. -/
def strstr (s sub : Bytes) : Option Nat :=
  (List.range (s.length + 1)).find? fun i => sub <+: s.drop i

/-- `my_strstr`.  The difference of the pointers is converted to `int`. -/
def myStrstr (s sub : Bytes) : Int :=
  match strstr (cstr s) (cstr sub) with
  | some index => Int.bmod index (2 ^ 32)
  | none => 0

/-- The conversion to `int` keeps what is in its range and makes anything else
smaller than the range. -/
theorem bmod_cases (i : Nat) :
    (i < 2147483648 ∧ Int.bmod i (2 ^ 32) = i) ∨
      2147483648 ≤ i ∧ Int.bmod i (2 ^ 32) < 2147483648 := by
  rw [Int.bmod_def]
  split <;> omega

/-- `trim_sring_at_str2`, with the buffer `s` before and after.  `none` is a
position that cannot be decremented, or a byte behind the buffer. -/
def trimSringAtStr2 (s sub : Bytes) : Option Bytes :=
  let location := myStrstr s sub
  if location = -2 ^ 31 then none
  else if 0 < location - 1 then write s (location - 1 + 1).toNat 0
  else some s

/-- A string occurs at a position, and nowhere before it. -/
structure FirstOccurrence (s sub : Bytes) (i : Nat) : Prop where
  occurs : sub <+: s.drop i
  first : ∀ j < i, ¬ sub <+: s.drop j

section Occurrence

variable {s sub : Bytes} {i : Nat}

/-- A string that is not empty occurs inside. -/
theorem FirstOccurrence.lt (h : FirstOccurrence s sub i) (hsub : sub ≠ []) : i < s.length := by
  by_contra hout
  have hnil := h.occurs
  rw [List.drop_eq_nil_of_le (by omega), List.prefix_nil] at hnil
  exact hsub hnil

theorem strstr_eq_some (hsub : sub ≠ []) (h : FirstOccurrence s sub i) : strstr s sub = some i := by
  have hlt := h.lt hsub
  rw [strstr, List.find?_range_eq_some]
  refine ⟨by simpa using h.occurs, by simp; omega, fun j hj => ?_⟩
  simpa using h.first j hj

theorem strstr_cases (s sub : Bytes) :
    (∃ i, FirstOccurrence s sub i) ∨ strstr s sub = none := by
  cases h : strstr s sub with
  | none => exact .inr rfl
  | some i =>
      rw [strstr, List.find?_range_eq_some] at h
      exact .inl ⟨i, by simpa using h.1, fun j hj => by simpa using h.2.2 j hj⟩

theorem FirstOccurrence.unique {j : Nat} (h : FirstOccurrence s sub i)
    (hj : FirstOccurrence s sub j) : i = j := by
  rcases Nat.lt_trichotomy i j with hlt | heq | hlt
  · exact absurd h.occurs (hj.first i hlt)
  · exact heq
  · exact absurd hj.occurs (h.first j hlt)

/-- Without an occurrence the string is left alone. -/
theorem trimSringAtStr2_of_none (h : ∀ i, ¬ FirstOccurrence (cstr s) (cstr sub) i) :
    trimSringAtStr2 s sub = some s := by
  rcases strstr_cases (cstr s) (cstr sub) with ⟨i, hfirst⟩ | hnone
  · exact absurd hfirst (h i)
  · rw [trimSringAtStr2, myStrstr, hnone]
    rfl

/-- With one, a position above 1 is where the string is cut; any other position
leaves it alone, or cannot be decremented. -/
theorem trimSringAtStr2_of_first (hsub : cstr sub ≠ [])
    (h : FirstOccurrence (cstr s) (cstr sub) i) :
    (1 < Int.bmod i (2 ^ 32) ∧ ∃ after, trimSringAtStr2 s sub = some after ∧
      cstr after = (cstr s).take (Int.bmod i (2 ^ 32)).toNat) ∨
    (Int.bmod i (2 ^ 32) ≤ 1 ∧
      (trimSringAtStr2 s sub = some s ∨ trimSringAtStr2 s sub = none)) := by
  have hlt := h.lt hsub
  have hlength : (cstr s).length ≤ s.length := (List.takeWhile_prefix _).length_le
  have hbelow : Int.bmod i (2 ^ 32) ≤ i := by
    have hrange := bmod_cases i
    omega
  have hposition : myStrstr s sub = Int.bmod i (2 ^ 32) := by
    rw [myStrstr, strstr_eq_some hsub h]
  rw [trimSringAtStr2, hposition]
  generalize Int.bmod i (2 ^ 32) = location at hbelow ⊢
  by_cases hcut : 1 < location
  · left
    have hsame : location - 1 + 1 = location := by omega
    have hinside : location.toNat < s.length := by omega
    refine ⟨hcut, s.set location.toNat 0, ?_, cstr_set s _⟩
    rw [if_neg (by omega), if_pos (by omega), hsame, write_of_lt hinside]
  · right
    refine ⟨by omega, ?_⟩
    by_cases hleast : location = -2 ^ 31
    · exact .inr (by rw [if_pos hleast])
    · exact .inl (by rw [if_neg hleast, if_neg (by omega)])

end Occurrence

/-- What is left of a string is the part before the first occurrence, or all of it
when there is none. -/
def CutsAtFirst (s sub : Bytes) : Prop :=
  ∃ after, trimSringAtStr2 s sub = some after ∧
    (∀ i, FirstOccurrence (cstr s) (cstr sub) i → cstr after = (cstr s).take i) ∧
    ((∀ i, ¬ FirstOccurrence (cstr s) (cstr sub) i) → after = s)

/-- **The cut, exactly.**  The string is cut where it should be if and only if its
first occurrence, if there is one, lies behind the second byte and its position is
an `int`. -/
theorem cuts_at_first_iff (s sub : Bytes) (hsub : cstr sub ≠ []) :
    CutsAtFirst s sub ↔
      ∀ i, FirstOccurrence (cstr s) (cstr sub) i → 2 ≤ i ∧ i < 2 ^ 31 := by
  constructor
  · intro hcuts i hfirst
    obtain ⟨after, hafter, hcut, -⟩ := hcuts
    have hlt := hfirst.lt hsub
    have hrange := bmod_cases i
    have hleft := congrArg List.length (hcut i hfirst)
    rw [List.length_take] at hleft
    rcases trimSringAtStr2_of_first hsub hfirst with
      ⟨hposition, cut, hcutoff, hstring⟩ | ⟨hposition, hsame | hnone⟩
    · -- a cut at another position leaves a string of another length
      obtain rfl := Option.some.inj (hcutoff.symm.trans hafter)
      rw [hstring, List.length_take] at hleft
      omega
    · obtain rfl := Option.some.inj (hsame.symm.trans hafter)
      omega
    · rw [hnone] at hafter
      cases hafter
  · intro h
    by_cases hany : ∃ i, FirstOccurrence (cstr s) (cstr sub) i
    · obtain ⟨i, hfirst⟩ := hany
      have hbounds := h i hfirst
      have hrange := bmod_cases i
      have hposition : Int.bmod i (2 ^ 32) = i := by omega
      rcases trimSringAtStr2_of_first hsub hfirst with ⟨-, after, hafter, hstring⟩ | ⟨hlow, -⟩
      · rw [hposition, Int.toNat_natCast] at hstring
        refine ⟨after, hafter, fun j hj => ?_, fun hnone => absurd hfirst (hnone i)⟩
        rw [hstring, hfirst.unique hj]
      · omega
    · have hnone : ∀ i, ¬ FirstOccurrence (cstr s) (cstr sub) i := fun i hi => hany ⟨i, hi⟩
      exact ⟨s, trimSringAtStr2_of_none hnone, fun i hi => absurd hi (hnone i), fun _ => rfl⟩

/-- The prompt that `read_rs232e` removes from a serial reply. -/
def prompt : Bytes := text "root@" ++ [0]

/-- A reply that begins with the prompt is left as it is, and so is one with a
line break in front of it. -/
theorem prompt_not_cut :
    (trimSringAtStr2 (text "root@box:~# " ++ [0]) prompt = some (text "root@box:~# " ++ [0]) ∧
      ¬ CutsAtFirst (text "root@box:~# " ++ [0]) prompt) ∧
    trimSringAtStr2 (text "\nroot@box:~# " ++ [0]) prompt = some (text "\nroot@box:~# " ++ [0]) ∧
      ¬ CutsAtFirst (text "\nroot@box:~# " ++ [0]) prompt := by
  have hbeginning : trimSringAtStr2 (text "root@box:~# " ++ [0]) prompt =
      some (text "root@box:~# " ++ [0]) := by decide +kernel
  have hsecond : trimSringAtStr2 (text "\nroot@box:~# " ++ [0]) prompt =
      some (text "\nroot@box:~# " ++ [0]) := by decide +kernel
  refine ⟨⟨hbeginning, fun h => ?_⟩, hsecond, fun h => ?_⟩
  · obtain ⟨after, hafter, hcut, -⟩ := h
    obtain rfl := Option.some.inj (hafter.symm.trans hbeginning)
    exact absurd (hcut 0 ⟨by decide, by decide⟩) (by decide)
  · obtain ⟨after, hafter, hcut, -⟩ := h
    obtain rfl := Option.some.inj (hafter.symm.trans hsecond)
    exact absurd (hcut 1 ⟨by decide, by decide⟩) (by decide)

/-- Behind output it is cut off. -/
theorem prompt_cut_behind_output : CutsAtFirst (text "ok\nroot@box:~# " ++ [0]) prompt := by
  apply (cuts_at_first_iff (text "ok\nroot@box:~# " ++ [0]) prompt (by decide)).mpr
  intro i hfirst
  have hthree : FirstOccurrence (cstr (text "ok\nroot@box:~# " ++ [0])) (cstr prompt) 3 :=
    ⟨by decide, by decide⟩
  rw [hfirst.unique hthree]
  decide

end CgiBin
