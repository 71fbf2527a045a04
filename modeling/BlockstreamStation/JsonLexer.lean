import BlockstreamStation.JsonNumbers
import BlockstreamStation.JsonStrings

/-!
# Tokens

`lexer::scan` of the vendored `nlohmann::json`: it skips white space and reads the
next token.  A NUL byte counts as the end of the input, and a byte order mark is
skipped at the beginning.  How a number that is no 64-bit integer is converted is a
parameter, `strtod`.

`Spelled` relates a byte string and the tokens it spells: white space, the text of a
token, and so on, with numbers read as far as they go.

* `found_of_scan`, `scan_of_tokenText` — one call of `scan`;
* `tokens_iff` — the calls of `scan` until the end of the input give the tokens that
  the byte string spells.
-/

namespace JsonText

open CText CodePoints Doubles

/-! ## The scanner -/

/-- `token_type`, as far as `scan` returns it, with the value the lexer holds
then. -/
inductive Token where
  | literalTrue
  | literalFalse
  | literalNull
  | valueString (s : Bytes)
  | valueUnsigned (n : UInt64)
  | valueInteger (n : Int64)
  | valueFloat (x : Double)
  | beginArray
  | beginObject
  | endArray
  | endObject
  | nameSeparator
  | valueSeparator
  | parseError
  | endOfInput

/-- Does nothing come after the token? -/
def Token.last : Token → Bool
  | .parseError | .endOfInput => true
  | _ => false

/-- The white space between tokens. -/
def isBlank (b : UInt8) : Bool := b = 32 || b = 9 || b = 10 || b = 13

/-- `skip_bom`: the input behind a byte order mark; half a mark is an error. -/
def skipBom : Bytes → Option Bytes
  | 0xEF :: 0xBB :: 0xBF :: rest => some rest
  | 0xEF :: _ => none
  | input => some input

/-- `scan_literal`, from its second character on. -/
def scanLiteral (token : Token) : Bytes → Bytes → Token × Bytes
  | [], input => (token, input)
  | _ :: _, [] => (.parseError, [])
  | c :: literal, current :: input =>
      if current = c then scanLiteral token literal input else (.parseError, input)

section Scanning

variable (strtod : Bytes → Double)

/-- What `scan_number_done` makes of the buffer: the integer types as far as they
reach, and `strtod` beyond. -/
def numberToken : NumberType → Bytes → Token
  | .unsigned, token_buffer =>
      let x := numeralValue 10 token_buffer
      if x < 2 ^ 64 then .valueUnsigned (UInt64.ofNat x) else .valueFloat (strtod token_buffer)
  | .integer, token_buffer =>
      let x := numeralValue 10 token_buffer.tail
      if x ≤ 2 ^ 63 then .valueInteger (Int64.ofInt (-x)) else .valueFloat (strtod token_buffer)
  | .float, token_buffer => .valueFloat (strtod token_buffer)

/-- The cases of `scan` that are one byte long. -/
def structuralToken (current : UInt8) : Option Token :=
  if current = 91 then some .beginArray
  else if current = 93 then some .endArray
  else if current = 123 then some .beginObject
  else if current = 125 then some .endObject
  else if current = 58 then some .nameSeparator
  else if current = 44 then some .valueSeparator
  else none

/-- The literal that a letter begins, and the rest of it. -/
def literalToken (current : UInt8) : Option (Token × Bytes) :=
  if current = 116 then some (.literalTrue, text "rue")
  else if current = 102 then some (.literalFalse, text "alse")
  else if current = 110 then some (.literalNull, text "ull")
  else none

/-- The `switch` of `scan`. -/
def scanToken : Bytes → Token × Bytes
  | [] => (.endOfInput, [])
  | current :: input =>
      match structuralToken current, literalToken current with
      | some token, _ => (token, input)
      | none, some (token, literal) => scanLiteral token literal input
      | none, none =>
          if current = quoteMark then
            match scanString [] input with
            | some (s, rest) => (.valueString s, rest)
            | none => (.parseError, [])
          else if current = 45 ∨ IsDigit current then
            match scanNumber (current :: input) with
            | some (number_type, token_buffer, rest) =>
                (numberToken strtod number_type token_buffer, rest)
            | none => (.parseError, [])
          else if current = 0 then (.endOfInput, input)
          else (.parseError, input)

/-- `scan`, behind the byte order mark. -/
def scan (input : Bytes) : Token × Bytes := scanToken strtod (input.dropWhile isBlank)

/-! ## The spelling of tokens -/

/-- The texts of a token. -/
inductive TokenText : Token → Bytes → Prop
  | literalTrue : TokenText .literalTrue (text "true")
  | literalFalse : TokenText .literalFalse (text "false")
  | literalNull : TokenText .literalNull (text "null")
  | string {body : Bytes} {chars : List Char} : StringBody body chars →
      TokenText (.valueString (encode chars)) (quoteMark :: (body ++ [quoteMark]))
  | number {number_type : NumberType} {t : Bytes} : NumberText number_type t →
      TokenText (numberToken strtod number_type t) t
  | beginArray : TokenText .beginArray [91]
  | endArray : TokenText .endArray [93]
  | beginObject : TokenText .beginObject [123]
  | endObject : TokenText .endObject [125]
  | nameSeparator : TokenText .nameSeparator [58]
  | valueSeparator : TokenText .valueSeparator [44]

def Blank (ws : Bytes) : Prop := ∀ b ∈ ws, isBlank b = true

/-- Nothing, or a NUL byte with anything behind it. -/
def AtEnd (input : Bytes) : Prop := input = [] ∨ ∃ tail, input = 0 :: tail

/-- A byte string and the tokens it spells.  A text that could go on as a number
does not end there. -/
inductive Spelled : Bytes → List Token → Prop
  | done {ws rest : Bytes} : Blank ws → AtEnd rest → Spelled (ws ++ rest) []
  | token {ws t rest : Bytes} {token : Token} {more : List Token} : Blank ws →
      TokenText strtod token t → (∀ b tail, rest = b :: tail → ¬ Continues t b) →
      Spelled rest more → Spelled (ws ++ (t ++ rest)) (token :: more)

end Scanning

/-! ## One call of `scan` -/

/-- A number begins with a minus sign or a digit. -/
theorem numberText_head {type : NumberType} {t : Bytes} (h : NumberText type t) :
    ∃ b tail, t = b :: tail ∧ (b = 45 ∨ IsDigit b) := by
  have hint : ∀ int : Bytes, IntPart int → ∃ b tail, int = b :: tail ∧ IsDigit b := by
    intro int h
    cases h with
    | zero => exact ⟨48, [], rfl, by decide⟩
    | digits hb _ _ => exact ⟨_, _, rfl, hb⟩
  cases h with
  | unsigned h =>
      obtain ⟨b, tail, rfl, hb⟩ := hint _ h
      exact ⟨b, tail, rfl, .inr hb⟩
  | integer _ => exact ⟨45, _, rfl, .inl rfl⟩
  | float hminus h _ _ _ =>
      obtain rfl | rfl := hminus
      · obtain ⟨b, tail, rfl, hb⟩ := hint _ h
        exact ⟨b, _, rfl, .inr hb⟩
      · exact ⟨45, _, rfl, .inl rfl⟩

/-- Only a text that begins like a number goes on as one. -/
theorem not_continues {b c : UInt8} {t : Bytes} (h : ¬ (b = 45 ∨ IsDigit b)) :
    ¬ Continues (b :: t) c := by
  intro hcontinues
  obtain ⟨type, more, hnumber⟩ := hcontinues
  obtain ⟨b', tail, heq, hb⟩ := numberText_head hnumber
  obtain ⟨rfl, -⟩ := List.cons.inj heq
  exact h hb

/-- A literal that stands there is read. -/
theorem scanLiteral_append (token : Token) (literal rest : Bytes) :
    scanLiteral token literal (literal ++ rest) = (token, rest) := by
  induction literal with
  | nil => rfl
  | cons c literal ih => rw [List.cons_append, scanLiteral, if_pos rfl, ih]

/-- A literal that is read stands there. -/
theorem scanLiteral_eq {token found : Token} {rest : Bytes} :
    ∀ literal input : Bytes, scanLiteral token literal input = (found, rest) →
      found = .parseError ∨ found = token ∧ input = literal ++ rest := by
  intro literal
  induction literal with
  | nil =>
      intro input h
      obtain ⟨rfl, rfl⟩ := Prod.mk.inj h
      exact .inr ⟨rfl, rfl⟩
  | cons c literal ih =>
      intro input h
      cases input with
      | nil => exact .inl (Prod.mk.inj h).1.symm
      | cons current input =>
          rw [scanLiteral] at h
          split_ifs at h with hc
          · obtain hfailed | ⟨rfl, rfl⟩ := ih input h
            · exact .inl hfailed
            · exact .inr ⟨rfl, by rw [hc]; rfl⟩
          · exact .inl (Prod.mk.inj h).1.symm

section Tokens

variable {strtod : Bytes → Double}

/-- What one call of `scan` finds behind the white space. -/
inductive Found (strtod : Bytes → Double) : Bytes → Token → Bytes → Prop
  | token {t rest : Bytes} {token : Token} : TokenText strtod token t →
      (∀ b tail, rest = b :: tail → ¬ Continues t b) → Found strtod (t ++ rest) token rest
  | done {input rest : Bytes} : AtEnd input → Found strtod input .endOfInput rest
  | failed {input rest : Bytes} : Found strtod input .parseError rest

/-- A token of one byte, which begins no number. -/
theorem structuralToken_text {b : UInt8} {token : Token} (h : structuralToken b = some token) :
    TokenText strtod token [b] ∧ ¬ (b = 45 ∨ IsDigit b) := by
  unfold structuralToken at h
  split_ifs at h with h1 h2 h3 h4 h5 h6 <;> obtain rfl := Option.some.inj h <;> subst b
  · exact ⟨.beginArray, by decide⟩
  · exact ⟨.endArray, by decide⟩
  · exact ⟨.beginObject, by decide⟩
  · exact ⟨.endObject, by decide⟩
  · exact ⟨.nameSeparator, by decide⟩
  · exact ⟨.valueSeparator, by decide⟩

/-- A letter that begins a literal begins no number. -/
theorem literalToken_text {b : UInt8} {token : Token} {literal : Bytes}
    (h : literalToken b = some (token, literal)) :
    TokenText strtod token (b :: literal) ∧ ¬ (b = 45 ∨ IsDigit b) := by
  unfold literalToken at h
  split_ifs at h with h1 h2 h3 <;>
    obtain ⟨rfl, rfl⟩ := Prod.mk.inj (Option.some.inj h) <;> subst b
  · exact ⟨.literalTrue, by decide⟩
  · exact ⟨.literalFalse, by decide⟩
  · exact ⟨.literalNull, by decide⟩

/-- What `scan` returns stands there. -/
theorem found_of_scanToken {input rest : Bytes} {token : Token}
    (h : scanToken strtod input = (token, rest)) : Found strtod input token rest := by
  cases input with
  | nil =>
      obtain ⟨rfl, rfl⟩ := Prod.mk.inj h
      exact .done (.inl rfl)
  | cons current input =>
      rw [scanToken] at h
      split at h
      · rename_i token' hstructural
        obtain ⟨rfl, rfl⟩ := Prod.mk.inj h
        obtain ⟨htext, hhead⟩ := structuralToken_text hstructural
        exact .token (t := [current]) htext fun _ _ _ => not_continues hhead
      · rename_i token' literal _ hliteral
        obtain ⟨htext, hhead⟩ := literalToken_text hliteral
        obtain rfl | ⟨rfl, rfl⟩ := scanLiteral_eq literal input h
        · exact .failed
        · exact .token (t := current :: literal) htext fun _ _ _ => not_continues hhead
      · split_ifs at h with hquote hnumber hnul
        · cases hstring : scanString [] input with
          | none =>
              rw [hstring] at h
              obtain ⟨rfl, rfl⟩ := Prod.mk.inj h
              exact .failed
          | some found =>
              obtain ⟨s, left⟩ := found
              rw [hstring] at h
              obtain ⟨rfl, rfl⟩ := Prod.mk.inj h
              obtain ⟨body, chars, rfl, hbody, rfl⟩ := scanString_iff.mp hstring
              have hsplit : current :: (body ++ quoteMark :: left) =
                  quoteMark :: (body ++ [quoteMark]) ++ left := by simp [hquote]
              rw [hsplit]
              exact .token (.string hbody) fun _ _ _ => not_continues (by decide)
        · cases hscan : scanNumber (current :: input) with
          | none =>
              rw [hscan] at h
              obtain ⟨rfl, rfl⟩ := Prod.mk.inj h
              exact .failed
          | some found =>
              obtain ⟨number_type, token_buffer, left⟩ := found
              rw [hscan] at h
              obtain ⟨rfl, rfl⟩ := Prod.mk.inj h
              obtain ⟨hsplit, hnumber, hstop⟩ := scanNumber_iff.mp hscan
              rw [hsplit]
              exact .token (.number hnumber) hstop
        · obtain ⟨rfl, rfl⟩ := Prod.mk.inj h
          exact .done (.inr ⟨input, by rw [hnul]⟩)
        · obtain ⟨rfl, rfl⟩ := Prod.mk.inj h
          exact .failed

/-- What begins a number is no token of one byte. -/
theorem structuralToken_number {b : UInt8} (h : b = 45 ∨ IsDigit b) :
    structuralToken b = none := by
  cases hstructural : structuralToken b with
  | none => rfl
  | some token => exact absurd h (@structuralToken_text (fun _ => ⟨0⟩) b token hstructural).2

/-- It begins no literal. -/
theorem literalToken_number {b : UInt8} (h : b = 45 ∨ IsDigit b) : literalToken b = none := by
  cases hliteral : literalToken b with
  | none => rfl
  | some found => exact absurd h (@literalToken_text (fun _ => ⟨0⟩) b _ _ hliteral).2

/-- It begins no string. -/
theorem ne_quoteMark_number {b : UInt8} (h : b = 45 ∨ IsDigit b) : b ≠ quoteMark := by
  intro heq
  subst heq
  revert h
  decide

/-- A token that stands there is returned. -/
theorem scanToken_of_tokenText {token : Token} {t rest : Bytes} (h : TokenText strtod token t)
    (hstop : ∀ b tail, rest = b :: tail → ¬ Continues t b) :
    scanToken strtod (t ++ rest) = (token, rest) := by
  cases h with
  | literalTrue => exact scanLiteral_append _ (text "rue") rest
  | literalFalse => exact scanLiteral_append _ (text "alse") rest
  | literalNull => exact scanLiteral_append _ (text "ull") rest
  | beginArray => rfl
  | endArray => rfl
  | beginObject => rfl
  | endObject => rfl
  | nameSeparator => rfl
  | valueSeparator => rfl
  | @string body chars hbody =>
      have hstring : scanString [] (body ++ [quoteMark] ++ rest) = some (encode chars, rest) :=
        scanString_iff.mpr ⟨body, chars, by simp, hbody, rfl⟩
      rw [List.cons_append, scanToken]
      change (match scanString [] (body ++ [quoteMark] ++ rest) with
        | some (s, rest) => (Token.valueString s, rest)
        | none => (Token.parseError, [])) = _
      rw [hstring]
  | number hnumber =>
      obtain ⟨b, tail, rfl, hb⟩ := numberText_head hnumber
      rw [List.cons_append, scanToken, structuralToken_number hb, literalToken_number hb]
      simp only
      rw [if_neg (ne_quoteMark_number hb), if_pos hb, ← List.cons_append,
        scanNumber_iff.mpr ⟨rfl, hnumber, hstop⟩]

/-- It is no white space. -/
theorem isBlank_number {b : UInt8} (h : b = 45 ∨ IsDigit b) : isBlank b = false := by
  obtain rfl | ⟨hlow, hhigh⟩ := h
  · rfl
  · simp only [UInt8.le_iff_toNat_le, UInt8.reduceToNat] at hlow hhigh
    simp only [isBlank, Bool.or_eq_false_iff, decide_eq_false_iff_not, ← UInt8.toNat_inj,
      UInt8.reduceToNat]
    omega

/-- No token begins with white space. -/
theorem tokenText_head {token : Token} {t : Bytes} (h : TokenText strtod token t) :
    ∃ b tail, t = b :: tail ∧ isBlank b = false := by
  cases h with
  | number hnumber =>
      obtain ⟨b, tail, rfl, hb⟩ := numberText_head hnumber
      exact ⟨b, tail, rfl, isBlank_number hb⟩
  | string _ => exact ⟨quoteMark, _, rfl, rfl⟩
  | literalTrue => exact ⟨_, _, rfl, rfl⟩
  | literalFalse => exact ⟨_, _, rfl, rfl⟩
  | literalNull => exact ⟨_, _, rfl, rfl⟩
  | beginArray => exact ⟨_, _, rfl, rfl⟩
  | endArray => exact ⟨_, _, rfl, rfl⟩
  | beginObject => exact ⟨_, _, rfl, rfl⟩
  | endObject => exact ⟨_, _, rfl, rfl⟩
  | nameSeparator => exact ⟨_, _, rfl, rfl⟩
  | valueSeparator => exact ⟨_, _, rfl, rfl⟩

/-- No text of a token stands for an error or the end. -/
theorem tokenText_kind {token : Token} {t : Bytes} (h : TokenText strtod token t) :
    token.last = false := by
  cases h with
  | @number number_type t _ =>
      cases number_type with
      | unsigned =>
          simp only [numberToken]
          split_ifs <;> rfl
      | integer =>
          simp only [numberToken]
          split_ifs <;> rfl
      | float => rfl
  | _ => rfl

/-- White space in front is skipped. -/
theorem dropWhile_blank {ws rest : Bytes} (h : Blank ws) :
    (ws ++ rest).dropWhile isBlank = rest.dropWhile isBlank :=
  List.dropWhile_append_of_pos h

/-- The input behind some white space. -/
theorem exists_blank (input : Bytes) :
    ∃ ws, Blank ws ∧ input = ws ++ input.dropWhile isBlank :=
  ⟨input.takeWhile isBlank, fun _ hb => List.mem_takeWhile_imp hb,
    List.takeWhile_append_dropWhile.symm⟩

/-- One call of `scan` on the text of a token. -/
theorem scan_of_tokenText {ws t rest : Bytes} {token : Token} (hws : Blank ws)
    (h : TokenText strtod token t) (hstop : ∀ b tail, rest = b :: tail → ¬ Continues t b) :
    scan strtod (ws ++ (t ++ rest)) = (token, rest) := by
  obtain ⟨b, tail, ht, hb⟩ := tokenText_head h
  rw [scan, dropWhile_blank hws, ht, List.cons_append,
    List.dropWhile_cons_of_neg (by simp [hb]), ← List.cons_append, ← ht]
  exact scanToken_of_tokenText h hstop

/-- At the end of the input `scan` says so. -/
theorem scan_of_atEnd {ws input : Bytes} (hws : Blank ws) (h : AtEnd input) :
    (scan strtod (ws ++ input)).1 = .endOfInput := by
  rw [scan, dropWhile_blank hws]
  obtain rfl | ⟨tail, rfl⟩ := h <;> rfl

/-- What one call of `scan` returns stands behind white space. -/
theorem found_of_scan {input rest : Bytes} {token : Token}
    (h : scan strtod input = (token, rest)) :
    ∃ ws input', Blank ws ∧ input = ws ++ input' ∧ Found strtod input' token rest := by
  obtain ⟨ws, hws, heq⟩ := exists_blank input
  exact ⟨ws, _, hws, heq, found_of_scanToken h⟩

/-- A token that something can follow takes bytes. -/
theorem length_of_scan {input rest : Bytes} {token : Token}
    (h : scan strtod input = (token, rest)) (hlast : token.last = false) :
    rest.length < input.length := by
  obtain ⟨ws, input', -, rfl, hfound⟩ := found_of_scan h
  cases hfound with
  | token htext _ =>
      obtain ⟨b, tail, rfl, -⟩ := tokenText_head htext
      simp only [List.length_append, List.length_cons]
      omega
  | done _ => cases hlast
  | failed => cases hlast

end Tokens

/-! ## The whole input -/

section Input

variable (strtod : Bytes → Double)

/-- The tokens of the calls of `scan`, up to the end of the input or an error. -/
def tokens (input : Bytes) : List Token :=
  match _hscan : scan strtod input with
  | (token, rest) => if _hlast : token.last = false then token :: tokens rest else [token]
termination_by input.length
decreasing_by exact length_of_scan _hscan _hlast

/-- The tokens, one call of `scan` at a time. -/
theorem tokens_eq (input : Bytes) :
    tokens strtod input =
      if (scan strtod input).1.last = false then
        (scan strtod input).1 :: tokens strtod (scan strtod input).2
      else [(scan strtod input).1] := by
  rw [tokens]
  rfl

variable {strtod}

/-- What a byte string spells is what `scan` gives. -/
theorem tokens_of_spelled {input : Bytes} {found : List Token} (h : Spelled strtod input found) :
    tokens strtod input = found ++ [.endOfInput] := by
  induction h with
  | @done ws rest hws hend =>
      rw [tokens_eq, scan_of_atEnd hws hend]
      rfl
  | token hws htext hstop _ ih =>
      rw [tokens_eq, scan_of_tokenText hws htext hstop, if_pos (tokenText_kind htext), ih,
        List.cons_append]

/-- And conversely, by induction on a bound of its length. -/
theorem spelled_of_tokens :
    ∀ (n : Nat) (input : Bytes) (found : List Token), input.length < n →
      tokens strtod input = found ++ [.endOfInput] → Spelled strtod input found := by
  intro n
  induction n with
  | zero =>
      intro input found hlength
      exact absurd hlength (Nat.not_lt_zero _)
  | succ n ih =>
      intro input found hlength h
      rw [tokens_eq] at h
      cases hscan : scan strtod input with
      | mk token rest =>
          obtain ⟨ws, input', hws, heq, hfound⟩ := found_of_scan hscan
          rw [hscan] at h
          by_cases hlast : token.last = false
          · rw [if_pos hlast] at h
            have hrest := length_of_scan hscan hlast
            cases found with
            | nil =>
                obtain ⟨rfl, -⟩ := List.cons.inj h
                cases hlast
            | cons head found =>
                obtain ⟨rfl, htokens⟩ := List.cons.inj h
                subst heq
                cases hfound with
                | token htext hstop =>
                    exact .token hws htext hstop (ih rest found (by omega) htokens)
                | done _ => cases hlast
                | failed => cases hlast
          · rw [if_neg hlast] at h
            cases found with
            | nil =>
                obtain ⟨rfl, -⟩ := List.cons.inj h
                subst heq
                cases hfound with
                | token htext _ => exact absurd (tokenText_kind htext) hlast
                | done hend => exact .done hws hend
            | cons head found => simp at h

/-- **Tokens are read exactly.**  The calls of `scan` come to the end of the input
over the tokens that the byte string spells. -/
theorem tokens_iff {input : Bytes} {found : List Token} :
    tokens strtod input = found ++ [.endOfInput] ↔ Spelled strtod input found := by
  constructor
  · exact spelled_of_tokens (input.length + 1) input found (Nat.lt_succ_self _)
  · exact tokens_of_spelled

end Input

end JsonText
