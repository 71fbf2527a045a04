import BlockstreamStation.ResourceBalance

/-!
# Addresses of `read_memory_address`

An address arrives as text, is converted by `std::stoull` with base 0 and stored
in a `uintptr_t`.  The conversion takes the longest numeral at the beginning and
nobody looks at what is left over; the store keeps the low bits, as many as a
pointer of the target has.

* `Numeral`, `LongestNumeral` — the unsigned numerals of C, and the one that a
  text begins with;
* `stoull_spec` — what the conversion accepts, and the value it gives;
* `PageSplit` — the page that is mapped for an address, and the place in it;
* `accepts_numerals_iff` — the address strings that are accepted or refused as
  they should be;
* `location_iff` — the addresses that are read where they were asked for.
-/

namespace CommandServer

open CText JsonText Procedures Proc

/-! ## Numerals -/

/-- The number that digits stand for. -/
def digitsValue (base : Nat) (digits : Bytes) : Nat :=
  digits.foldl (fun n b => base * n + digitValue b) 0

/-- The unsigned numerals of C and the numbers they stand for. -/
inductive Numeral : Bytes → Nat → Prop where
  | hexadecimal {x : UInt8} {digits : Bytes} (hx : x = 120 ∨ x = 88) (hne : digits ≠ [])
      (hdigits : ∀ d ∈ digits, digitValue d < 16) :
      Numeral (48 :: x :: digits) (digitsValue 16 digits)
  | octal {digits : Bytes} (hdigits : ∀ d ∈ digits, digitValue d < 8) :
      Numeral (48 :: digits) (digitsValue 8 digits)
  | decimal {first : UInt8} {digits : Bytes} (hfirst : first ≠ 48)
      (hdigits : ∀ d ∈ first :: digits, digitValue d < 10) :
      Numeral (first :: digits) (digitsValue 10 (first :: digits))

/-- The longest numeral that a text begins with. -/
structure LongestNumeral (str numeral : Bytes) (n : Nat) : Prop where
  begins : numeral <+: str
  isNumeral : Numeral numeral n
  longest : ∀ other k, other <+: str → Numeral other k → other.length ≤ numeral.length

/-- The letter of a hexadecimal numeral is no digit of another base. -/
theorem digitValue_of_letter {x : UInt8} (hx : x = 120 ∨ x = 88) : digitValue x = 33 := by
  rcases hx with rfl | rfl <;> rfl

/-- A numeral begins with a decimal digit. -/
theorem Numeral.exists_first {str : Bytes} {n : Nat} (h : Numeral str n) :
    ∃ first rest, str = first :: rest ∧ digitValue first < 10 := by
  cases h with
  | hexadecimal => exact ⟨48, _, rfl, by decide⟩
  | octal => exact ⟨48, _, rfl, by decide⟩
  | decimal hfirst hdigits => exact ⟨_, _, rfl, hdigits _ List.mem_cons_self⟩

/-- A numeral stands for one number. -/
theorem Numeral.unique {str : Bytes} {n k : Nat} (hn : Numeral str n) (hk : Numeral str k) :
    n = k := by
  cases hn with
  | hexadecimal hx hne hdigits =>
      cases hk with
      | hexadecimal => rfl
      | octal hoctal =>
          have hletter := hoctal _ List.mem_cons_self
          rw [digitValue_of_letter hx] at hletter
          omega
      | decimal hfirst => exact absurd rfl hfirst
  | octal hdigits =>
      cases hk with
      | hexadecimal hx =>
          have hletter := hdigits _ List.mem_cons_self
          rw [digitValue_of_letter hx] at hletter
          omega
      | octal => rfl
      | decimal hfirst => exact absurd rfl hfirst
  | decimal hfirst hdigits =>
      cases hk with
      | hexadecimal => exact absurd rfl hfirst
      | octal => exact absurd rfl hfirst
      | decimal => rfl

theorem LongestNumeral.unique {str numeral other : Bytes} {n k : Nat}
    (hn : LongestNumeral str numeral n) (hk : LongestNumeral str other k) :
    numeral = other ∧ n = k := by
  have hle := hk.longest numeral n hn.begins hn.isNumeral
  have hge := hn.longest other k hk.begins hk.isNumeral
  obtain rfl := (List.prefix_of_prefix_length_le hn.begins hk.begins hle).eq_of_length
    (Nat.le_antisymm hle hge)
  exact ⟨rfl, hn.isNumeral.unique hk.isNumeral⟩

theorem length_le_takeWhile {p : UInt8 → Bool} {front str : Bytes} (hfront : front <+: str)
    (hall : ∀ b ∈ front, p b = true) : front.length ≤ (str.takeWhile p).length := by
  obtain ⟨rest, rfl⟩ := hfront
  rw [List.takeWhile_append_of_pos hall, List.length_append]
  exact Nat.le_add_right _ _

theorem digitValue_of_mem_takeWhile {base : Nat} {str : Bytes} {d : UInt8}
    (h : d ∈ str.takeWhile (digitValue · < base)) : digitValue d < base := by
  simpa using List.mem_takeWhile_imp h

/-! ## The numeral of a text -/

section Splitting

variable {x d : UInt8} {rest : Bytes}

/-- What the base of a text is, by its first three bytes. -/
theorem splitBase_cases (str : Bytes) :
    (∃ x d rest, str = 48 :: x :: d :: rest ∧ (x = 120 ∨ x = 88) ∧ digitValue d < 16 ∧
      splitBase str = (16, d :: rest)) ∨
    (∃ rest, str = 48 :: rest ∧ splitBase str = (8, str) ∧
      ∀ x d tail, rest = x :: d :: tail → x = 120 ∨ x = 88 → ¬ digitValue d < 16) ∨
    str.head? ≠ some 48 ∧ splitBase str = (10, str) := by
  fun_cases splitBase str with
  | case1 x d rest h => exact .inl ⟨x, d, rest, rfl, h.1, h.2, rfl⟩
  | case2 x d rest h =>
      refine .inr (.inl ⟨x :: d :: rest, rfl, rfl, fun x' d' tail heq hx hd => ?_⟩)
      cases heq
      exact h ⟨hx, hd⟩
  | case3 rest hshort =>
      refine .inr (.inl ⟨rest, rfl, rfl, fun x d tail heq => ?_⟩)
      exact absurd heq (hshort x d tail)
  | case4 rest hfull hzero =>
      refine .inr (.inr ⟨fun hhead => ?_, rfl⟩)
      obtain ⟨tail, rfl⟩ := List.head?_eq_some_iff.mp hhead
      exact hzero tail rfl

/-- Behind `0x` and a digit the numeral is hexadecimal. -/
theorem longestNumeral_hexadecimal (hx : x = 120 ∨ x = 88) (hd : digitValue d < 16) :
    LongestNumeral (48 :: x :: d :: rest)
      (48 :: x :: (d :: rest).takeWhile (digitValue · < 16))
      (digitsValue 16 ((d :: rest).takeWhile (digitValue · < 16))) := by
  constructor
  · exact List.cons_prefix_cons.mpr ⟨rfl, List.cons_prefix_cons.mpr ⟨rfl, List.takeWhile_prefix _⟩⟩
  · refine .hexadecimal hx ?_ fun d hd => digitValue_of_mem_takeWhile hd
    rw [List.takeWhile_cons_of_pos (by simpa using hd)]
    exact List.cons_ne_nil _ _
  · intro other k hother hnumeral
    rw [List.length_cons, List.length_cons]
    cases hnumeral with
    | hexadecimal hx' hne hdigits =>
        have hrest := (List.cons_prefix_cons.mp (List.cons_prefix_cons.mp hother).2).2
        have hlength := length_le_takeWhile hrest fun b hb => decide_eq_true (hdigits b hb)
        rw [List.length_cons, List.length_cons]
        omega
    | @octal digits hdigits =>
        cases digits with
        | nil => simp
        | cons y ys =>
            obtain ⟨rfl, -⟩ := List.cons_prefix_cons.mp (List.cons_prefix_cons.mp hother).2
            have hletter := hdigits y List.mem_cons_self
            rw [digitValue_of_letter hx] at hletter
            omega
    | decimal hfirst hdigits =>
        exact absurd (List.cons_prefix_cons.mp hother).1 hfirst

/-- Behind any other zero it is octal. -/
theorem longestNumeral_octal
    (hother : ∀ x d tail, rest = x :: d :: tail → x = 120 ∨ x = 88 → ¬ digitValue d < 16) :
    LongestNumeral (48 :: rest) ((48 :: rest).takeWhile (digitValue · < 8))
      (digitsValue 8 ((48 :: rest).takeWhile (digitValue · < 8))) := by
  have htake : (48 :: rest).takeWhile (digitValue · < 8) =
      48 :: rest.takeWhile (digitValue · < 8) := List.takeWhile_cons_of_pos (by decide)
  constructor
  · exact List.takeWhile_prefix _
  · rw [htake]
    exact .octal fun d hd => digitValue_of_mem_takeWhile hd
  · intro other k hbegins hnumeral
    cases hnumeral with
    | @hexadecimal x digits hx hne hdigits =>
        -- a third byte that is a digit would have made the text hexadecimal
        obtain ⟨d, ds, rfl⟩ := List.exists_cons_of_ne_nil hne
        obtain ⟨tail, htail⟩ := (List.cons_prefix_cons.mp hbegins).2
        exact absurd (hdigits d List.mem_cons_self) (hother x d (ds ++ tail) htail.symm hx)
    | octal hdigits =>
        rw [htake, List.length_cons, List.length_cons]
        have hlength := length_le_takeWhile (List.cons_prefix_cons.mp hbegins).2
          fun b hb => decide_eq_true (hdigits b hb)
        omega
    | decimal hfirst hdigits =>
        exact absurd (List.cons_prefix_cons.mp hbegins).1 hfirst

/-- Without a zero in front it is decimal. -/
theorem longestNumeral_decimal {str : Bytes} (hhead : str.head? ≠ some 48)
    (hne : str.takeWhile (digitValue · < 10) ≠ []) :
    LongestNumeral str (str.takeWhile (digitValue · < 10))
      (digitsValue 10 (str.takeWhile (digitValue · < 10))) := by
  constructor
  · exact List.takeWhile_prefix _
  · obtain ⟨first, digits, htake⟩ := List.exists_cons_of_ne_nil hne
    have hfirst : first ≠ 48 := by
      intro heq
      apply hhead
      obtain ⟨tail, htail⟩ := List.takeWhile_prefix (l := str) (digitValue · < 10)
      rw [← htail, htake, heq]
      rfl
    rw [htake]
    refine .decimal hfirst fun d hd => ?_
    rw [← htake] at hd
    exact digitValue_of_mem_takeWhile hd
  · intro other k hbegins hnumeral
    cases hnumeral with
    | hexadecimal =>
        obtain ⟨tail, rfl⟩ := hbegins
        exact absurd rfl hhead
    | octal =>
        obtain ⟨tail, rfl⟩ := hbegins
        exact absurd rfl hhead
    | decimal hfirst hdigits =>
        exact length_le_takeWhile hbegins fun b hb => decide_eq_true (hdigits b hb)

/-- A text that does not begin with a digit begins with no numeral. -/
theorem no_numeral {str : Bytes} (hempty : str.takeWhile (digitValue · < 10) = [])
    {numeral : Bytes} {n : Nat} (hbegins : numeral <+: str) : ¬ Numeral numeral n := by
  intro hnumeral
  obtain ⟨first, rest, rfl, hfirst⟩ := hnumeral.exists_first
  obtain ⟨tail, rfl⟩ := hbegins
  rw [List.cons_append, List.takeWhile_cons_of_pos (by simpa using hfirst)] at hempty
  cases hempty

/-- The digits that `stoull` takes are those of the longest numeral, and it takes
none where there is no numeral. -/
theorem splitBase_digits {str rest : Bytes} {base : Nat} (h : splitBase str = (base, rest)) :
    (rest.takeWhile (digitValue · < base) = [] ∧
      ∀ numeral n, numeral <+: str → ¬ Numeral numeral n) ∨
    (rest.takeWhile (digitValue · < base) ≠ [] ∧
      ∃ numeral, LongestNumeral str numeral
        (digitsValue base (rest.takeWhile (digitValue · < base)))) := by
  rcases splitBase_cases str with ⟨x, d, tail, rfl, hx, hd, hsplit⟩ |
    ⟨tail, rfl, hsplit, hother⟩ | ⟨hhead, hsplit⟩
  · obtain ⟨rfl, rfl⟩ := Prod.mk.inj (hsplit.symm.trans h)
    refine .inr ⟨?_, _, longestNumeral_hexadecimal hx hd⟩
    rw [List.takeWhile_cons_of_pos (by simpa using hd)]
    exact List.cons_ne_nil _ _
  · obtain ⟨rfl, rfl⟩ := Prod.mk.inj (hsplit.symm.trans h)
    refine .inr ⟨?_, _, longestNumeral_octal hother⟩
    rw [List.takeWhile_cons_of_pos (by decide)]
    exact List.cons_ne_nil _ _
  · obtain ⟨rfl, rfl⟩ := Prod.mk.inj (hsplit.symm.trans h)
    by_cases hempty : str.takeWhile (digitValue · < 10) = []
    · exact .inl ⟨hempty, fun numeral n hbegins => no_numeral hempty hbegins⟩
    · exact .inr ⟨hempty, _, longestNumeral_decimal hhead hempty⟩

end Splitting

/-! ## What the conversion accepts -/

/-- The signs a number may have, with whether they negate it. -/
inductive Sign : Bytes → Bool → Prop where
  | minus : Sign [45] true
  | plus : Sign [43] false
  | none : Sign [] false

/-- Behind white space and a sign, a text begins with a numeral below 2^64. -/
def Convertible (str : Bytes) (negative : Bool) (n : Nat) : Prop :=
  ∃ space sign rest numeral, str = space ++ (sign ++ rest) ∧ (∀ b ∈ space, isSpace b = true) ∧
    Sign sign negative ∧ LongestNumeral rest numeral n ∧ n < 2 ^ 64

/-- The number that is converted; a minus negates modulo 2^64. -/
def convertedValue (negative : Bool) (n : Nat) : Nat :=
  if negative then (2 ^ 64 - n) % 2 ^ 64 else n

/-- A decimal digit is neither white space nor a sign. -/
theorem ne_sign_of_digitValue {b : UInt8} (h : digitValue b < 10) :
    isSpace b = false ∧ b ≠ 45 ∧ b ≠ 43 := by
  have hrange : 48 ≤ b.toNat ∧ b.toNat ≤ 57 := by
    unfold digitValue at h
    split_ifs at h with h₁ h₂ h₃
    · exact h₁
    · have hletter : 97 ≤ b.toNat := h₂.1
      omega
    · have hletter : 65 ≤ b.toNat := h₃.1
      omega
    · omega
  have hspace : ¬ (b.toNat = 32 ∨ 9 ≤ b.toNat ∧ b.toNat ≤ 13) := by omega
  refine ⟨?_, fun heq => ?_, fun heq => ?_⟩
  · simpa [isSpace, UInt8.le_iff_toNat_le, ← UInt8.toNat_inj] using hspace
  · rw [heq] at hrange
    exact absurd hrange.1 (by decide)
  · rw [heq] at hrange
    exact absurd hrange.1 (by decide)

theorem splitSign_spec {str rest : Bytes} {negative : Bool}
    (h : splitSign str = (negative, rest)) : ∃ sign, str = sign ++ rest ∧ Sign sign negative := by
  revert h
  fun_cases splitSign str with
  | case1 tail =>
      intro h
      cases h
      exact ⟨[45], rfl, .minus⟩
  | case2 tail =>
      intro h
      cases h
      exact ⟨[43], rfl, .plus⟩
  | case3 tail =>
      intro h
      cases h
      exact ⟨[], rfl, .none⟩

/-- What begins with a digit is split off behind its sign. -/
theorem splitSign_of_sign {sign rest : Bytes} {negative : Bool} {first : UInt8} {tail : Bytes}
    (hsign : Sign sign negative) (hrest : rest = first :: tail) (hfirst : digitValue first < 10) :
    splitSign (sign ++ rest) = (negative, rest) := by
  cases hsign with
  | minus => rfl
  | plus => rfl
  | none =>
      obtain ⟨-, hminus, hplus⟩ := ne_sign_of_digitValue hfirst
      rw [List.nil_append, hrest, splitSign.eq_def]
      split <;> simp_all

/-- Behind the white space there is a sign or a digit. -/
theorem dropWhile_space {space sign rest : Bytes} {negative : Bool} {first : UInt8} {tail : Bytes}
    (hspace : ∀ b ∈ space, isSpace b = true) (hsign : Sign sign negative)
    (hrest : rest = first :: tail) (hfirst : digitValue first < 10) :
    (space ++ (sign ++ rest)).dropWhile isSpace = sign ++ rest := by
  rw [List.dropWhile_append_of_pos hspace]
  cases hsign with
  | minus => rfl
  | plus => rfl
  | none =>
      rw [List.nil_append, hrest, List.dropWhile_cons_of_neg]
      simp [(ne_sign_of_digitValue hfirst).1]

theorem convertible_iff {str : Bytes} {negative : Bool} {n : Nat} :
    Convertible str negative n ↔
      ∃ rest numeral, splitSign (str.dropWhile isSpace) = (negative, rest) ∧
        LongestNumeral rest numeral n ∧ n < 2 ^ 64 := by
  constructor
  · intro h
    obtain ⟨space, sign, rest, numeral, rfl, hspace, hsign, hnumeral, hlt⟩ := h
    obtain ⟨first, digits, rfl, hfirst⟩ := hnumeral.isNumeral.exists_first
    obtain ⟨tail, htail⟩ := hnumeral.begins
    refine ⟨rest, _, ?_, hnumeral, hlt⟩
    rw [dropWhile_space hspace hsign htail.symm hfirst, splitSign_of_sign hsign htail.symm hfirst]
  · intro h
    obtain ⟨rest, numeral, hsplit, hnumeral, hlt⟩ := h
    obtain ⟨sign, hdrop, hsign⟩ := splitSign_spec hsplit
    refine ⟨str.takeWhile isSpace, sign, rest, numeral, ?_, fun b hb => List.mem_takeWhile_imp hb,
      hsign, hnumeral, hlt⟩
    rw [← hdrop, List.takeWhile_append_dropWhile]

/-- **The conversion.**  `stoull` gives the number of the longest numeral, or
throws where there is none below 2^64. -/
theorem stoull_spec (str : Bytes) :
    (∃ negative n, Convertible str negative n ∧
      stoull str = (pure (convertedValue negative n) : Handler Nat)) ∨
    (∀ negative n, ¬ Convertible str negative n) ∧
      ∃ e, stoull str = (throwing e : Handler Nat) := by
  rcases hsign : splitSign (str.dropWhile isSpace) with ⟨negative, rest⟩
  rcases hbase : splitBase rest with ⟨base, tail⟩
  have hstoull : stoull str = (
      let digits := tail.takeWhile (digitValue · < base)
      if digits = [] then throwing .invalidArgument
      else if 2 ^ 64 ≤ digitsValue base digits then throwing .outOfRange
      else pure (convertedValue negative (digitsValue base digits)) : Handler Nat) := by
    simp only [stoull, hsign, hbase]
    rfl
  have hsplit : ∀ negative' n, Convertible str negative' n →
      ∃ numeral, LongestNumeral rest numeral n ∧ n < 2 ^ 64 := by
    intro negative' n h
    obtain ⟨rest', numeral, hsign', hnumeral, hlt⟩ := convertible_iff.mp h
    obtain ⟨-, rfl⟩ := Prod.mk.inj (hsign.symm.trans hsign')
    exact ⟨numeral, hnumeral, hlt⟩
  rcases splitBase_digits hbase with ⟨hempty, hnone⟩ | ⟨hne, numeral, hnumeral⟩
  · refine .inr ⟨fun negative' n h => ?_, _, hstoull.trans (if_pos hempty)⟩
    obtain ⟨numeral, hlongest, -⟩ := hsplit negative' n h
    exact hnone numeral n hlongest.begins hlongest.isNumeral
  · rw [if_neg hne] at hstoull
    split at hstoull
    · rename_i hlarge
      refine .inr ⟨fun negative' n h => ?_, _, hstoull⟩
      obtain ⟨numeral', hlongest, hlt⟩ := hsplit negative' n h
      obtain ⟨-, rfl⟩ := hnumeral.unique hlongest
      exact Nat.not_lt.mpr hlarge hlt
    · rename_i hsmall
      exact .inl ⟨negative, _, convertible_iff.mpr ⟨rest, numeral, hsign, hnumeral,
        Nat.not_le.mp hsmall⟩, hstoull⟩

/-- What is a numeral below 2^64 as a whole is converted to its number. -/
theorem convertible_of_numeral {str : Bytes} {n : Nat} (h : Numeral str n) (hlt : n < 2 ^ 64) :
    Convertible str false n :=
  ⟨[], [], str, str, rfl, by simp, .none,
    ⟨List.prefix_rfl, h, fun other k hother _ => hother.length_le⟩, hlt⟩

/-! ## Requests for an address -/

/-- A request to read the memory at an address that is a string. -/
structure AddressRequest where
  members : List (Bytes × Json)
  address_str : Bytes
  command_eq : members.lookup (text "command") = some (.string (text "read_memory_address"))
  address_eq : members.lookup (text "address") = some (.string address_str)

/-- The replies to an address that cannot be converted. -/
def addressErrors : List Bytes :=
  [text "\x7b\"command\":\"ACK\",\"result\":\"Invalid address parameter\"\x7d",
    text "\x7b\"command\":\"ACK\",\"result\":\"Error converting address\"\x7d"]

namespace AddressRequest

def json (r : AddressRequest) : Json := .object r.members

variable {p : Platform} {a : Answers} {m : Machine}

theorem handleCommand_json (r : AddressRequest) :
    handleCommand p a r.json m =
      if r.address_str = [] then wrapReply (text "Invalid address parameter") m
      else (do
        let converted ← catching (do return some (← stoull r.address_str)) fun _ => some (pure none)
        match converted with
        | none => wrapReply (text "Error converting address")
        | some address => readConverted p a address) m := by
  have hcommand : r.json.valueString (text "command") [] m =
      (.returns (text "read_memory_address"), m) := by
    simp [json, Json.valueString, r.command_eq, Json.getString]
  have haddress : r.json.valueString (text "address") [] m = (.returns r.address_str, m) := by
    simp [json, Json.valueString, r.address_eq, Json.getString]
  rw [handleCommand, bind_of_returns hcommand, if_neg (by decide), if_neg (by decide),
    if_neg (by decide), if_neg (by decide), if_neg (by decide), if_pos rfl,
    handleReadMemoryAddress, bind_of_returns haddress]
  split <;> rfl

/-- Without a number at its beginning an address is refused. -/
theorem handleCommand_of_not_convertible {r : AddressRequest}
    (h : ∀ negative n, ¬ Convertible r.address_str negative n) (p : Platform) (a : Answers)
    (m : Machine) : ∃ reply ∈ addressErrors, handleCommand p a r.json m = (.returns reply, m) := by
  rw [handleCommand_json]
  split
  · exact ⟨_, List.mem_cons_self, rfl⟩
  · rcases stoull_spec r.address_str with ⟨negative, n, hconvertible, -⟩ | ⟨-, e, hthrows⟩
    · exact absurd hconvertible (h negative n)
    · rw [hthrows]
      exact ⟨_, List.mem_cons_of_mem _ List.mem_cons_self, rfl⟩

/-- With one, the memory is read at that number. -/
theorem handleCommand_of_stoull {r : AddressRequest} {address : Nat}
    (h : stoull r.address_str = (pure address : Handler Nat)) (p : Platform) (a : Answers)
    (m : Machine) : handleCommand p a r.json m = readConverted p a address m := by
  have hne : r.address_str ≠ [] := by
    intro hempty
    rw [hempty] at h
    cases congrFun h zeroMachine
  rw [handleCommand_json, if_neg hne, h]
  rfl

theorem exists_address_of_convertible {r : AddressRequest} {negative : Bool} {n : Nat}
    (h : Convertible r.address_str negative n) :
    ∃ address, ∀ p a m, handleCommand p a r.json m = readConverted p a address m := by
  rcases stoull_spec r.address_str with ⟨negative', n', -, hreturns⟩ | ⟨hnone, -⟩
  · exact ⟨_, handleCommand_of_stoull hreturns⟩
  · exact absurd h (hnone negative n)

end AddressRequest

/-! ## Where memory is read -/

section Memory

variable {p : Platform} {a : Answers} {m : Machine}

/-- The beginning of a page and the offset in it add up to the address. -/
theorem pageStart_add_offset {bits : Nat} (address mask : BitVec bits) :
    (address &&& mask).toNat + (address - (address &&& mask)).toNat = address.toNat := by
  have hle : (address &&& mask).toNat ≤ address.toNat := by
    rw [BitVec.toNat_and]
    exact Nat.and_le_left
  rw [BitVec.toNat_sub_of_le hle]
  omega

/-- What a call that returns has mapped and read. -/
theorem readMemoryAddress_mapped {address : BitVec p.pointerBits} {value : UInt8}
    {m' : Machine} (h : readMemoryAddress p a address m = (.returns value, m')) :
    m'.calls = m.calls ++ [SysCall.openFile (text "/dev/mem") true,
        .mmap (pageStart p address).toNat true, .munmap, .closeFile] ∧
      value = a.memory ((pageStart p address).toNat + (pageOffset p address).toNat) := by
  obtain ⟨after, ⟨-, -, hspec⟩ | ⟨-, -, -, hspec⟩ | ⟨-, -, hcalls, hspec⟩⟩ :=
    readMemoryAddress_spec p a address m
  · cases hspec.symm.trans h
  · cases hspec.symm.trans h
  · obtain ⟨hvalue, rfl⟩ := Prod.mk.inj (hspec.symm.trans h)
    exact ⟨hcalls, (Outcome.returns.inj hvalue).symm⟩

/-- Memory is read at the address that the pointer holds. -/
theorem readMemoryAddress_returns {address : BitVec p.pointerBits} {value : UInt8}
    {m' : Machine} (h : readMemoryAddress p a address m = (.returns value, m')) :
    value = a.memory address.toNat := by
  rw [(readMemoryAddress_mapped h).2, pageOffset, pageStart, pageStart_add_offset]

/-- The device file of the memory is opened first. -/
theorem readMemoryAddress_opens (address : BitVec p.pointerBits) :
    ∃ made, (readMemoryAddress p a address m).2.calls =
      m.calls ++ .openFile (text "/dev/mem") a.openMem :: made := by
  obtain ⟨m', ⟨hopen, hcalls, h⟩ | ⟨hopen, -, hcalls, h⟩ | ⟨hopen, -, hcalls, h⟩⟩ :=
    readMemoryAddress_spec p a address m
  · exact ⟨_, by rw [h, hopen]; exact hcalls⟩
  · exact ⟨_, by rw [h, hopen]; exact hcalls⟩
  · exact ⟨_, by rw [h, hopen]; exact hcalls⟩

theorem readConverted_opens (address : Nat) :
    ∃ made, (readConverted p a address m).2.calls =
      m.calls ++ .openFile (text "/dev/mem") a.openMem :: made := by
  obtain ⟨reply, h⟩ := readConverted_returns p a address m
  rw [h]
  exact readMemoryAddress_opens _

end Memory

/-! ## The page of an address -/

/-- The mask that `readMemoryAddress` complements has the bits below the page
size. -/
theorem getLsbD_pageMask {bits k : Nat} (hk : k < bits) (i : Nat) :
    (BitVec.ofNat bits (2 ^ k) - 1).getLsbD i = decide (i < k) := by
  have hlt : 2 ^ k < 2 ^ bits := Nat.pow_lt_pow_right (by omega) hk
  have hone : (1 : BitVec bits).toNat = 1 := BitVec.toNat_one (by omega)
  have hsize : (BitVec.ofNat bits (2 ^ k)).toNat = 2 ^ k := by
    rw [BitVec.toNat_ofNat, Nat.mod_eq_of_lt hlt]
  have hmask : (BitVec.ofNat bits (2 ^ k) - 1).toNat = 2 ^ k - 1 := by
    have hle : (1 : BitVec bits) ≤ BitVec.ofNat bits (2 ^ k) := by
      rw [BitVec.le_def, hone, hsize]
      exact Nat.one_le_two_pow
    rw [BitVec.toNat_sub_of_le hle, hsize, hone]
  rw [← BitVec.testBit_toNat, hmask, Nat.testBit_two_pow_sub_one]

/-- Masking leaves the whole pages of an address. -/
theorem toNat_pageStart {p : Platform} {k : Nat} (hpage : p.pageSize = 2 ^ k)
    (hbelow : p.pageSize < 2 ^ p.pointerBits) (address : BitVec p.pointerBits) :
    (pageStart p address).toNat = address.toNat / p.pageSize * p.pageSize := by
  have hk : k < p.pointerBits := by
    rw [hpage] at hbelow
    exact (Nat.pow_lt_pow_iff_right (by omega)).mp hbelow
  have hshifts : pageStart p address = address >>> k <<< k := by
    apply BitVec.eq_of_getLsbD_eq
    intro i hi
    rw [pageStart, hpage, BitVec.getLsbD_and, BitVec.getLsbD_not, getLsbD_pageMask hk,
      BitVec.getLsbD_shiftLeft, BitVec.getLsbD_ushiftRight]
    by_cases hlow : i < k
    · simp [hlow]
    · simp [hlow, hi, show k + (i - k) = i by omega]
  have hfits : address.toNat / 2 ^ k * 2 ^ k < 2 ^ p.pointerBits :=
    Nat.lt_of_le_of_lt (Nat.div_mul_le_self _ _) address.isLt
  rw [hshifts, BitVec.toNat_shiftLeft, BitVec.toNat_ushiftRight, Nat.shiftRight_eq_div_pow,
    Nat.shiftLeft_eq, Nat.mod_eq_of_lt hfits, hpage]

/-- An address is split into a page and a place inside it, and the byte is read
there. -/
structure PageSplit (p : Platform) (address : BitVec p.pointerBits) : Prop where
  aligned : p.pageSize ∣ (pageStart p address).toNat
  start_le : (pageStart p address).toNat ≤ address.toNat
  no_underflow :
    (pageOffset p address).toNat = address.toNat - (pageStart p address).toNat
  offset_lt : (pageOffset p address).toNat < p.pageSize
  no_overflow :
    (pageStart p address).toNat + (pageOffset p address).toNat < 2 ^ p.pointerBits
  sum : pageStart p address + pageOffset p address = address
  reads : ∀ a m value m', readMemoryAddress p a address m = (.returns value, m') →
    m'.calls = m.calls ++ [SysCall.openFile (text "/dev/mem") true,
        .mmap (pageStart p address).toNat true, .munmap, .closeFile] ∧
      value = a.memory ((pageStart p address).toNat + (pageOffset p address).toNat)

/-- **One page holds the byte.**  When the page size is a power of two that a
pointer can hold, masking rounds any address down to a page, the offset is the
place inside that page, and neither the subtraction nor the sum wraps around. -/
theorem page_split (p : Platform) (hpower : ∃ k, p.pageSize = 2 ^ k)
    (hbelow : p.pageSize < 2 ^ p.pointerBits) (address : BitVec p.pointerBits) :
    PageSplit p address := by
  obtain ⟨k, hpage⟩ := hpower
  have hstart := toNat_pageStart hpage hbelow address
  have hle : (pageStart p address).toNat ≤ address.toNat := by
    rw [hstart]
    exact Nat.div_mul_le_self _ _
  have hoffset : (pageOffset p address).toNat = address.toNat - (pageStart p address).toNat :=
    BitVec.toNat_sub_of_le hle
  refine ⟨⟨_, hstart.trans (Nat.mul_comm _ _)⟩, hle, hoffset, ?_, ?_, ?_, ?_⟩
  · have hpos : 0 < p.pageSize := hpage ▸ Nat.two_pow_pos k
    have hlt := Nat.lt_div_mul_add hpos (a := address.toNat)
    omega
  · rw [hoffset, Nat.add_sub_cancel' hle]
    exact address.isLt
  · rw [pageOffset, BitVec.add_comm, BitVec.sub_add_cancel]
  · exact fun a m value m' => readMemoryAddress_mapped

/-- The last address of a pointer of 64 bits, with pages of 4096 bytes. -/
theorem page_split_at_top :
    PageSplit ⟨64, 4096⟩ (BitVec.allOnes 64) ∧
      (pageStart ⟨64, 4096⟩ (BitVec.allOnes 64)).toNat = 2 ^ 64 - 4096 :=
  ⟨page_split ⟨64, 4096⟩ ⟨12, rfl⟩ (by decide) (BitVec.allOnes 64), by decide⟩

/-! ## Accepted addresses -/

/-- A numeral below 2^64. -/
def IsNumeral (str : Bytes) : Prop := ∃ n < 2 ^ 64, Numeral str n

/-- Numerals and nothing else are accepted: any other address is answered with an
error and makes no call, and a numeral makes the server turn to the memory. -/
structure AddressRequest.AcceptsNumerals (r : AddressRequest) : Prop where
  refuses : ¬ IsNumeral r.address_str → ∀ p a m,
    ∃ reply ∈ addressErrors, handleCommand p a r.json m = (.returns reply, m)
  accepts : IsNumeral r.address_str → ∀ p a m,
    ∃ made, (handleCommand p a r.json m).2.calls =
      m.calls ++ .openFile (text "/dev/mem") a.openMem :: made

/-- **Accepted addresses, exactly.**  An address string is treated as a numeral
should be if and only if it is one, or nothing in it can be converted.  White
space and a sign in front of a numeral, and anything behind it, pass the
conversion. -/
theorem accepts_numerals_iff (r : AddressRequest) :
    r.AcceptsNumerals ↔
      IsNumeral r.address_str ∨ ∀ negative n, ¬ Convertible r.address_str negative n := by
  constructor
  · intro h
    by_cases hnumeral : IsNumeral r.address_str
    · exact .inl hnumeral
    · refine .inr fun negative n hconvertible => ?_
      obtain ⟨address, hreads⟩ := AddressRequest.exists_address_of_convertible hconvertible
      obtain ⟨reply, -, hrefused⟩ := h.refuses hnumeral ⟨32, 4096⟩ willing zeroMachine
      obtain ⟨made, hmade⟩ :=
        readConverted_opens (p := ⟨32, 4096⟩) (a := willing) (m := zeroMachine) address
      rw [← hreads, hrefused] at hmade
      simp at hmade
  · intro h
    refine ⟨fun hnot => ?_, fun hnumeral p a m => ?_⟩
    · exact AddressRequest.handleCommand_of_not_convertible (h.resolve_left hnot)
    · obtain ⟨n, hlt, hn⟩ := hnumeral
      obtain ⟨address, hreads⟩ :=
        AddressRequest.exists_address_of_convertible (convertible_of_numeral hn hlt)
      rw [hreads]
      exact readConverted_opens address

/-- A hexadecimal address with letters behind it. -/
def mistyped : AddressRequest where
  members := [(text "command", .string (text "read_memory_address")),
    (text "address", .string (text "0x10zz"))]
  address_str := text "0x10zz"
  command_eq := rfl
  address_eq := rfl

/-- Memory is read at 16 for an address that is no numeral. -/
theorem mistyped_read :
    ¬ IsNumeral mistyped.address_str ∧
      (handleCommand ⟨32, 4096⟩ willing mistyped.json zeroMachine).2.calls =
        [.openFile (text "/dev/mem") true, .mmap 0 true, .munmap, .closeFile] ∧
      ¬ mistyped.AcceptsNumerals := by
  have hnumeral : ¬ IsNumeral mistyped.address_str := by
    intro h
    obtain ⟨n, -, hn⟩ := h
    change Numeral [48, 120, 49, 48, 122, 122] n at hn
    cases hn with
    | hexadecimal hx hne hdigits => exact absurd (hdigits 122 (by decide)) (by decide)
    | octal hdigits => exact absurd (hdigits 120 (by decide)) (by decide)
    | decimal hfirst => exact hfirst rfl
  have hcalls : (handleCommand ⟨32, 4096⟩ willing mistyped.json zeroMachine).2.calls =
      [.openFile (text "/dev/mem") true, .mmap 0 true, .munmap, .closeFile] := by decide +kernel
  refine ⟨hnumeral, hcalls, fun h => ?_⟩
  obtain ⟨reply, -, hrefused⟩ := h.refuses hnumeral ⟨32, 4096⟩ willing zeroMachine
  rw [hrefused] at hcalls
  cases hcalls

/-! ## Addresses of the target -/

/-- A reply that reports an error. -/
def IsErrorReply (reply : Bytes) : Prop :=
  reply ∈ addressErrors ∨ ∃ what,
    dump [(text "command", text "ACK"), (text "result", text "Error: " ++ what)] = some reply

/-- Memory is read at the address that was asked for, and an address that the
target does not have is answered with an error. -/
structure ReadsRequested (p : Platform) (address : Nat) : Prop where
  location : ∀ a m value m',
    readMemoryAddress p a (BitVec.ofNat p.pointerBits address) m = (.returns value, m') →
      value = a.memory address
  refuses : 2 ^ p.pointerBits ≤ address → ∀ r : AddressRequest,
    stoull r.address_str = (pure address : Handler Nat) → ∀ a m,
      ∃ reply m', handleCommand p a r.json m = (.returns reply, m') ∧ IsErrorReply reply

theorem readsRequested_of_lt {p : Platform} {address : Nat} (h : address < 2 ^ p.pointerBits) :
    ReadsRequested p address := by
  refine ⟨fun a m value m' hreturns => ?_, fun hle => absurd h (Nat.not_lt.mpr hle)⟩
  rw [readMemoryAddress_returns hreturns, BitVec.toNat_ofNat, Nat.mod_eq_of_lt h]

/-- **Addresses, exactly.**  Whatever the page size, an address is read where it
was asked for if and only if it fits the pointer of the target; the bits above are
dropped, and another address is read in its place. -/
theorem location_iff (p : Platform) (address : Nat) :
    ReadsRequested p address ↔ address < 2 ^ p.pointerBits := by
  constructor
  · intro h
    by_contra hlarge
    -- a memory that is different at this address only
    let a : Answers := { willing with memory := fun n => if n = address then 1 else 0 }
    have hreads := h.location a zeroMachine
    have hlow : address % 2 ^ p.pointerBits ≠ address := by
      have hlt := Nat.mod_lt address (Nat.two_pow_pos p.pointerBits)
      omega
    rcases readMemoryAddress_cases p a (BitVec.ofNat p.pointerBits address) zeroMachine with
      ⟨value, m', hreturns⟩ | ⟨what, m', hthrows, -⟩
    · have hvalue := (readMemoryAddress_returns hreturns).symm.trans (hreads value m' hreturns)
      simp [a, hlow] at hvalue
    · unfold readMemoryAddress at hthrows
      cases hthrows
  · exact readsRequested_of_lt

/-- What `stoull` returns is below 2^64. -/
theorem stoull_lt {str : Bytes} {address : Nat}
    (h : stoull str = (pure address : Handler Nat)) : address < 2 ^ 64 := by
  rcases stoull_spec str with ⟨negative, n, hconvertible, hreturns⟩ | ⟨-, e, hthrows⟩
  · have hsame := congrFun (hreturns.symm.trans h) zeroMachine
    have haddress : convertedValue negative n = address := Outcome.returns.inj (Prod.mk.inj hsame).1
    obtain ⟨rest, numeral, -, -, hlt⟩ := convertible_iff.mp hconvertible
    rw [← haddress, convertedValue]
    split
    · exact Nat.mod_lt _ (Nat.two_pow_pos 64)
    · exact hlt
  · cases congrFun (hthrows.symm.trans h) zeroMachine

/-- With pointers of 64 bits every address that can be asked for is read. -/
theorem readsRequested_on_host {str : Bytes} {address : Nat} (pageSize : Nat)
    (h : stoull str = (pure address : Handler Nat)) : ReadsRequested ⟨64, pageSize⟩ address :=
  readsRequested_of_lt (stoull_lt h)

/-- A memory with one byte that is not zero. -/
def sevenAtSixteen : Answers := { willing with memory := fun n => if n = 16 then 7 else 0 }

/-- With pointers of 32 bits that byte is read for an address above them. -/
theorem location_past_pointer :
    stoull (text "0x100000010") = (pure 4294967312 : Handler Nat) ∧
      (readMemoryAddress ⟨32, 4096⟩ sevenAtSixteen (BitVec.ofNat 32 4294967312) zeroMachine).1 =
        .returns 7 ∧
      ¬ ReadsRequested ⟨32, 4096⟩ 4294967312 := by
  have hreads : (readMemoryAddress ⟨32, 4096⟩ sevenAtSixteen (BitVec.ofNat 32 4294967312)
      zeroMachine).1 = .returns 7 := by decide +kernel
  refine ⟨rfl, hreads, fun h => ?_⟩
  have hvalue := h.location sevenAtSixteen zeroMachine 7 _ (Prod.ext hreads rfl)
  revert hvalue
  decide

end CommandServer
