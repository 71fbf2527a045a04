import BlockstreamStation.CText
import BlockstreamStation.Doubles
import BlockstreamStation.Procedures

/-!
# The JSON values the server reads and writes

The part of the vendored `nlohmann::json` that the command server calls:

* `value` with a string or an `int` default, and `operator[]` on a constant
  value, with the exception or assertion each leaves by;
* `dump` of an object of strings, which escapes them and throws on bytes that
  are not UTF-8.

`decode` is the automaton the library checks UTF-8 with, here by the bytes each
of its states admits.  `dumpEscaped_isSome` says that dumping succeeds exactly
on UTF-8, and `utf8_dumpEscaped` that what it writes is UTF-8 again, so that a
reply can be wrapped a second time.  The server takes parsing as a parameter;
`parse` is the library's.
-/

namespace JsonText

open CText Doubles Procedures

/-- A JSON value.  A program can build one with a number that is not finite; the parser
rejects these. -/
inductive Json where
  | null
  | boolean (b : Bool)
  | numberInteger (n : Int64)
  | numberUnsigned (n : UInt64)
  | numberFloat (x : Double)
  | string (s : Bytes)
  | array (elements : List Json)
  | object (members : List (Bytes × Json))

/-- The exceptions the server's code can meet. -/
inductive Exception where
  | parseError
  | typeError (id : Nat)
  | invalidArgument
  | outOfRange
  | runtimeError (what : Bytes)
deriving DecidableEq

/-! ## Reading members -/

section Members

variable {σ : Type}

/-- `get<std::string>()`. -/
def Json.getString : Json → Proc σ Exception Bytes
  | .string s => pure s
  | _ => Proc.throwing (.typeError 302)

/-- The `int` with the low 32 bits of a number. -/
def toInt32 (n : Int) : Int := n.bmod (2 ^ 32)

/-- The low 32 bits are an `int`. -/
theorem toInt32_range (n : Int) : -2 ^ 31 ≤ toInt32 n ∧ toInt32 n < 2 ^ 31 := by
  have hle := Int.le_bmod (x := n) (m := 2 ^ 32) (by decide)
  have hlt := Int.bmod_lt (x := n) (m := 2 ^ 32) (by decide)
  unfold toInt32
  omega

/-- Does a floating point number keep its value, up to its fraction, as an
`int`? -/
def FitsInt (x : Double) : Prop :=
  x.isFinite = true ∧ -2147483649 < x.toRat ∧ x.toRat < 2147483648

instance (x : Double) : Decidable (FitsInt x) := by unfold FitsInt; infer_instance

/-- The integer part, rounding towards zero. -/
def truncate (x : Double) : Int := if 0 ≤ x.toRat then x.toRat.floor else x.toRat.ceil

/-- So is the integer part of a number that fits. -/
theorem truncate_range {x : Double} (h : FitsInt x) :
    -2 ^ 31 ≤ truncate x ∧ truncate x < 2 ^ 31 := by
  obtain ⟨-, hlow, hhigh⟩ := h
  unfold truncate
  split
  · rename_i hpos
    have hfloor : 0 ≤ x.toRat.floor := Rat.le_floor_iff.mpr hpos
    have hlt : x.toRat.floor < 2147483648 := Rat.floor_lt_iff.mpr hhigh
    omega
  · rename_i hneg
    have hceil : -2147483649 < x.toRat.ceil := Rat.lt_ceil_iff.mpr hlow
    have hle : x.toRat.ceil ≤ 0 := Rat.ceil_le_iff.mpr (Rat.le_of_lt (Rat.not_le.mp hneg))
    omega

/-- `get<int>()`: the arithmetic types are converted, booleans included.  The
conversion of a floating point number out of range is undefined. -/
def Json.getInt : Json → Proc σ Exception Int
  | .numberUnsigned n => pure (toInt32 n.toNat)
  | .numberInteger n => pure (toInt32 n.toInt)
  | .numberFloat x => if FitsInt x then pure (truncate x) else Proc.undefined
  | .boolean b => pure (if b then 1 else 0)
  | _ => Proc.throwing (.typeError 302)

/-- `value(key, default_value)` with a string default. -/
def Json.valueString (j : Json) (key default_value : Bytes) : Proc σ Exception Bytes :=
  match j with
  | .object members =>
      match members.lookup key with
      | some member => member.getString
      | none => pure default_value
  | _ => Proc.throwing (.typeError 306)

/-- `value(key, default_value)` with an `int` default. -/
def Json.valueInt (j : Json) (key : Bytes) (default_value : Int) : Proc σ Exception Int :=
  match j with
  | .object members =>
      match members.lookup key with
      | some member => member.getInt
      | none => pure default_value
  | _ => Proc.throwing (.typeError 306)

/-- `operator[]` on a constant value: the key has to be there. -/
def Json.at (j : Json) (key : Bytes) : Proc σ Exception Json :=
  match j with
  | .object members =>
      match members.lookup key with
      | some member => pure member
      | none => Proc.abort
  | _ => Proc.throwing (.typeError 305)

/-! ## When reading returns -/

/-- The string a value holds, if it is one. -/
def Json.string? : Json → Option Bytes
  | .string s => some s
  | _ => none

/-- The `int` an arithmetic value converts to, if that is defined. -/
def Json.int? : Json → Option Int
  | .numberUnsigned n => some (toInt32 n.toNat)
  | .numberInteger n => some (toInt32 n.toInt)
  | .numberFloat x => if FitsInt x then some (truncate x) else none
  | .boolean b => some (if b then 1 else 0)
  | _ => none

/-- The members of an object. -/
def Json.members? : Json → Option (List (Bytes × Json))
  | .object members => some members
  | _ => none

/-- The member of an object under a key, read by `read`; a missing member counts
as `default_value`. -/
def Json.member? {α : Type} (read : Json → Option α) (j : Json) (key : Bytes)
    (default_value : α) : Option α :=
  j.members?.bind fun members =>
    match members.lookup key with
    | some member => read member
    | none => some default_value

/-- Reading a string gives the string a value holds. -/
theorem getString_yields (j : Json) :
    Proc.Yields (j.getString : Proc σ Exception Bytes) j.string? := by
  cases j with
  | string s => exact Proc.yields_pure s
  | _ => exact Proc.yields_throwing _

/-- Reading an `int` gives the `int` a value converts to. -/
theorem getInt_yields (j : Json) :
    Proc.Yields (j.getInt : Proc σ Exception Int) j.int? := by
  cases j with
  | numberUnsigned n => exact Proc.yields_pure _
  | numberInteger n => exact Proc.yields_pure _
  | boolean b => exact Proc.yields_pure _
  | numberFloat x =>
      unfold Json.getInt Json.int?
      by_cases h : FitsInt x
      · simpa only [if_pos h] using Proc.yields_pure _
      · simpa only [if_neg h] using Proc.yields_undefined
  | _ => exact Proc.yields_throwing _

/-- `value` with a string default gives the member or the default. -/
theorem valueString_yields (j : Json) (key default_value : Bytes) :
    Proc.Yields (j.valueString key default_value : Proc σ Exception Bytes)
      (j.member? Json.string? key default_value) := by
  cases j with
  | object members =>
      simp only [Json.valueString, Json.member?, Json.members?, Option.bind_some]
      cases members.lookup key with
      | some member => exact getString_yields member
      | none => exact Proc.yields_pure _
  | _ => exact Proc.yields_throwing _

/-- So does `value` with an `int` default. -/
theorem valueInt_yields (j : Json) (key : Bytes) (default_value : Int) :
    Proc.Yields (j.valueInt key default_value : Proc σ Exception Int)
      (j.member? Json.int? key default_value) := by
  cases j with
  | object members =>
      simp only [Json.valueInt, Json.member?, Json.members?, Option.bind_some]
      cases members.lookup key with
      | some member => exact getInt_yields member
      | none => exact Proc.yields_pure _
  | _ => exact Proc.yields_throwing _

/-- `operator[]` gives a member that is there. -/
theorem at_yields (j : Json) (key : Bytes) :
    Proc.Yields (j.at key : Proc σ Exception Json) (j.members?.bind (·.lookup key)) := by
  cases j with
  | object members =>
      simp only [Json.at, Json.members?, Option.bind_some]
      cases members.lookup key with
      | some member => exact Proc.yields_pure _
      | none => exact Proc.yields_abort
  | _ => exact Proc.yields_throwing _

/-- What converts to an `int` is in its range. -/
theorem int?_range {j : Json} {n : Int} (h : j.int? = some n) :
    -2 ^ 31 ≤ n ∧ n < 2 ^ 31 := by
  cases j with
  | numberUnsigned k =>
      obtain rfl := Option.some.inj h
      exact toInt32_range _
  | numberInteger k =>
      obtain rfl := Option.some.inj h
      exact toInt32_range _
  | boolean b =>
      obtain rfl := Option.some.inj h
      cases b <;> decide
  | numberFloat x =>
      rw [Json.int?] at h
      split at h
      · rename_i hfits
        obtain rfl := Option.some.inj h
        exact truncate_range hfits
      · cases h
  | null => cases h
  | string s => cases h
  | array elements => cases h
  | object members => cases h

end Members

/-! ## UTF-8 -/

/-- The states of the decoder: how many continuation bytes it waits for, and
after which lead byte where the first of them is restricted. -/
inductive Utf8State where
  | accept
  | reject
  | one
  | two
  | three
  | afterE0
  | afterED
  | afterF0
  | afterF4
deriving DecidableEq

/-- Go on to `next` on a byte from `low` to `high`. -/
def within (low high byte : UInt8) (next : Utf8State) : Utf8State :=
  if low ≤ byte ∧ byte ≤ high then next else .reject

/-- One byte through the decoder. -/
def decode : Utf8State → UInt8 → Utf8State
  | .accept, b =>
      if b < 0x80 then .accept
      else if b < 0xC2 then .reject
      else if b < 0xE0 then .one
      else if b = 0xE0 then .afterE0
      else if b = 0xED then .afterED
      else if b < 0xF0 then .two
      else if b = 0xF0 then .afterF0
      else if b < 0xF4 then .three
      else if b = 0xF4 then .afterF4
      else .reject
  | .reject, _ => .reject
  | .one, b => within 0x80 0xBF b .accept
  | .two, b => within 0x80 0xBF b .one
  | .three, b => within 0x80 0xBF b .two
  | .afterE0, b => within 0xA0 0xBF b .one
  | .afterED, b => within 0x80 0x9F b .one
  | .afterF0, b => within 0x90 0xBF b .two
  | .afterF4, b => within 0x80 0x8F b .two

/-- The decoder along a byte string. -/
def decodeAll (state : Utf8State) (bytes : Bytes) : Utf8State := bytes.foldl decode state

/-- A byte string that is UTF-8. -/
def Utf8 (bytes : Bytes) : Prop := decodeAll .accept bytes = .accept

instance (bytes : Bytes) : Decidable (Utf8 bytes) := by unfold Utf8; infer_instance

/-- Without bytes the decoder stays. -/
@[simp] theorem decodeAll_nil (state : Utf8State) : decodeAll state [] = state := rfl

/-- Byte by byte. -/
@[simp] theorem decodeAll_cons (state : Utf8State) (b : UInt8) (rest : Bytes) :
    decodeAll state (b :: rest) = decodeAll (decode state b) rest := rfl

/-- Two byte strings, one behind the other. -/
theorem decodeAll_append (state : Utf8State) (front rest : Bytes) :
    decodeAll state (front ++ rest) = decodeAll (decodeAll state front) rest :=
  List.foldl_append

/-- There is no way out of `reject`. -/
theorem decodeAll_reject (bytes : Bytes) : decodeAll .reject bytes = .reject := by
  induction bytes with
  | nil => rfl
  | cons b rest ih => exact ih

/-- Between code points an ASCII byte is one. -/
theorem decode_accept_of_lt {b : UInt8} (h : b < 0x80) : decode .accept b = .accept :=
  if_pos h

/-- Inside a code point no byte below 0x80 is admitted. -/
theorem decode_of_lt {state : Utf8State} {b : UInt8} (hstate : state ≠ .accept)
    (h : b < 0x80) : decode state b = .reject := by
  have hlow : ∀ low high next, (0x80 : UInt8) ≤ low → within low high b next = .reject := by
    intro low high next hle
    apply if_neg
    intro hparts
    obtain ⟨hb, -⟩ := hparts
    exact UInt8.not_lt.mpr (UInt8.le_trans hle hb) h
  cases state with
  | accept => exact absurd rfl hstate
  | reject => rfl
  | one => exact hlow _ _ _ (by decide)
  | two => exact hlow _ _ _ (by decide)
  | three => exact hlow _ _ _ (by decide)
  | afterE0 => exact hlow _ _ _ (by decide)
  | afterED => exact hlow _ _ _ (by decide)
  | afterF0 => exact hlow _ _ _ (by decide)
  | afterF4 => exact hlow _ _ _ (by decide)

/-- ASCII text is UTF-8. -/
theorem utf8_of_ascii {bytes : Bytes} (h : Ascii bytes) : Utf8 bytes := by
  unfold Utf8
  induction bytes with
  | nil => rfl
  | cons b rest ih =>
      rw [decodeAll_cons, decode_accept_of_lt (h b List.mem_cons_self)]
      exact ih fun c hc => h c (List.mem_cons_of_mem b hc)

/-- Behind UTF-8 only the rest counts. -/
theorem utf8_append {front rest : Bytes} (h : Utf8 front) :
    Utf8 (front ++ rest) ↔ Utf8 rest := by
  unfold Utf8 at *
  rw [decodeAll_append, h]

/-! ## Writing -/

/-- How `dump_escaped` writes the byte that completes a code point, or one
within it: code points of more than one byte are copied. -/
def escape (b : UInt8) : Bytes :=
  if b = 0x08 then text "\\b"
  else if b = 0x09 then text "\\t"
  else if b = 0x0A then text "\\n"
  else if b = 0x0C then text "\\f"
  else if b = 0x0D then text "\\r"
  else if b = 0x22 then text "\\\""
  else if b = 0x5C then text "\\\\"
  else if b ≤ 0x1F then text "\\u" ++ padded 4 (numeral 16 b.toNat)
  else [b]

/-- The loop of `dump_escaped` with the strict error handler: `none` when it
throws. -/
def dumpEscaped : Utf8State → Bytes → Option Bytes
  | state, [] => if state = .accept then some [] else none
  | state, b :: rest =>
      if decode state b = .reject then none
      else (dumpEscaped (decode state b) rest).map (escape b ++ ·)

def quote : Bytes := [34]

/-- `"key":"value"`. -/
def dumpMember (member : Bytes × Bytes) : Option Bytes := do
  let key ← dumpEscaped .accept member.1
  let value ← dumpEscaped .accept member.2
  return quote ++ key ++ quote ++ text ":" ++ quote ++ value ++ quote

/-- The members of an object, with commas between them. -/
def dumpMembers : List (Bytes × Bytes) → Option Bytes
  | [] => some []
  | [last] => dumpMember last
  | member :: rest => do
      let first ← dumpMember member
      let others ← dumpMembers rest
      return first ++ text "," ++ others

/-- `dump()` of an object whose members are all strings. -/
def dump (members : List (Bytes × Bytes)) : Option Bytes := do
  let written ← dumpMembers members
  return text "\x7b" ++ written ++ text "\x7d"

/-- A byte within a longer code point is copied. -/
theorem escape_of_ge {b : UInt8} (h : 0x80 ≤ b) : escape b = [b] := by
  have hne : ∀ c : UInt8, c < 0x80 → b ≠ c := by
    intro c hc heq
    subst heq
    exact UInt8.not_lt.mpr h hc
  have hle : ¬ b ≤ 0x1F := by
    intro hle
    exact absurd (UInt8.le_trans h hle) (by decide)
  unfold escape
  rw [if_neg (hne _ (by decide)), if_neg (hne _ (by decide)), if_neg (hne _ (by decide)),
    if_neg (hne _ (by decide)), if_neg (hne _ (by decide)), if_neg (hne _ (by decide)),
    if_neg (hne _ (by decide)), if_neg hle]

/-- What stands for an ASCII byte is ASCII. -/
theorem ascii_escape {b : UInt8} (h : b < 0x80) : Ascii (escape b) := by
  unfold escape
  split_ifs
  iterate 7 (focus decide)
  · exact ascii_append (by decide) (ascii_padded (ascii_numeral (by decide) (by decide)))
  · exact fun c hc => List.mem_singleton.mp hc ▸ h

/-- The decoder comes out of an escaped byte as out of the byte itself. -/
theorem decodeAll_escape {state : Utf8State} {b : UInt8} (h : decode state b ≠ .reject) :
    decodeAll state (escape b) = decode state b := by
  by_cases hb : b < 0x80
  · have haccept : state = .accept := by
      by_contra hne
      exact h (decode_of_lt hne hb)
    subst haccept
    rw [decode_accept_of_lt hb]
    exact utf8_of_ascii (ascii_escape hb)
  · rw [escape_of_ge (UInt8.not_lt.mp hb)]
    rfl

/-- The loop throws exactly where the decoder rejects. -/
theorem dumpEscaped_isSome (bytes : Bytes) :
    ∀ state, (dumpEscaped state bytes).isSome ↔ decodeAll state bytes = .accept := by
  induction bytes with
  | nil =>
      intro state
      by_cases h : state = .accept <;> simp [dumpEscaped, h]
  | cons b rest ih =>
      intro state
      by_cases h : decode state b = .reject
      · simp [dumpEscaped, h, decodeAll_reject]
      · simp [dumpEscaped, h, ih]

/-- What the loop writes is accepted from the state it starts in. -/
theorem decodeAll_dumpEscaped (bytes : Bytes) :
    ∀ state out, dumpEscaped state bytes = some out → decodeAll state out = .accept := by
  induction bytes with
  | nil =>
      intro state out h
      by_cases hstate : state = .accept
      · simp [dumpEscaped, hstate] at h
        simp [hstate, h]
      · simp [dumpEscaped, hstate] at h
  | cons b rest ih =>
      intro state out h
      by_cases hreject : decode state b = .reject
      · simp [dumpEscaped, hreject] at h
      · rw [dumpEscaped, if_neg hreject, Option.map_eq_some_iff] at h
        obtain ⟨tail, htail, rfl⟩ := h
        rw [decodeAll_append, decodeAll_escape hreject]
        exact ih _ _ htail

/-- Dumping a string succeeds exactly on UTF-8. -/
theorem dumpEscaped_accept_isSome {bytes : Bytes} :
    (dumpEscaped .accept bytes).isSome ↔ Utf8 bytes :=
  dumpEscaped_isSome bytes .accept

/-- A dumped string is UTF-8. -/
theorem utf8_dumpEscaped {bytes out : Bytes} (h : dumpEscaped .accept bytes = some out) :
    Utf8 out :=
  decodeAll_dumpEscaped bytes .accept out h

/-- A member is dumped exactly if its key and its value are UTF-8. -/
theorem dumpMember_isSome (member : Bytes × Bytes) :
    (dumpMember member).isSome ↔ Utf8 member.1 ∧ Utf8 member.2 := by
  rw [← dumpEscaped_accept_isSome, ← dumpEscaped_accept_isSome]
  unfold dumpMember
  cases dumpEscaped .accept member.1 <;> cases dumpEscaped .accept member.2 <;> simp

/-- What is written for a member is UTF-8. -/
theorem utf8_dumpMember {member : Bytes × Bytes} {out : Bytes}
    (h : dumpMember member = some out) : Utf8 out := by
  unfold dumpMember at h
  cases hkey : dumpEscaped .accept member.1 with
  | none => simp [hkey] at h
  | some key =>
      cases hvalue : dumpEscaped .accept member.2 with
      | none => simp [hkey, hvalue] at h
      | some value =>
          simp only [hkey, hvalue, Option.bind_eq_bind, Option.bind_some, Option.pure_def,
            Option.some.injEq, List.append_assoc] at h
          rw [← h, utf8_append (by decide), utf8_append (utf8_dumpEscaped hkey),
            utf8_append (by decide), utf8_append (by decide), utf8_append (by decide),
            utf8_append (utf8_dumpEscaped hvalue)]
          decide

/-- Members are dumped exactly if each of them is. -/
theorem dumpMembers_isSome (members : List (Bytes × Bytes)) :
    (dumpMembers members).isSome ↔ ∀ member ∈ members, Utf8 member.1 ∧ Utf8 member.2 := by
  fun_induction dumpMembers members with
  | case1 => simp
  | case2 last => simpa using dumpMember_isSome last
  | case3 member rest _ ih =>
      rw [List.forall_mem_cons, ← ih, ← dumpMember_isSome]
      cases dumpMember member <;> cases dumpMembers rest <;> simp

/-- What is written for them is UTF-8. -/
theorem utf8_dumpMembers {members : List (Bytes × Bytes)} :
    ∀ out, dumpMembers members = some out → Utf8 out := by
  fun_induction dumpMembers members with
  | case1 =>
      intro out heq
      cases heq
      rfl
  | case2 last => exact fun out h => utf8_dumpMember h
  | case3 member rest _ ih =>
      intro out h
      cases hfirst : dumpMember member with
      | none => simp [hfirst] at h
      | some first =>
          cases hothers : dumpMembers rest with
          | none => simp [hfirst, hothers] at h
          | some others =>
              simp only [hfirst, hothers, Option.bind_eq_bind, Option.bind_some,
                Option.pure_def, Option.some.injEq, List.append_assoc] at h
              rw [← h, utf8_append (utf8_dumpMember hfirst), utf8_append (by decide)]
              exact ih others hothers

/-- An object of strings can be dumped exactly when its keys and values are
UTF-8. -/
theorem dump_isSome (members : List (Bytes × Bytes)) :
    (dump members).isSome ↔ ∀ member ∈ members, Utf8 member.1 ∧ Utf8 member.2 := by
  rw [← dumpMembers_isSome]
  unfold dump
  cases dumpMembers members <;> simp

/-- What `dump` writes is UTF-8. -/
theorem utf8_dump {members : List (Bytes × Bytes)} {out : Bytes}
    (h : dump members = some out) : Utf8 out := by
  unfold dump at h
  cases hmembers : dumpMembers members with
  | none => simp [hmembers] at h
  | some written =>
      simp only [hmembers, Option.bind_eq_bind, Option.bind_some, Option.pure_def,
        Option.some.injEq, List.append_assoc] at h
      rw [← h, utf8_append (by decide), utf8_append (utf8_dumpMembers written hmembers)]
      decide

end JsonText
