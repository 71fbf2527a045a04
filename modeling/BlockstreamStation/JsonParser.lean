import BlockstreamStation.JsonLexer
import Mathlib.Data.List.Lex

/-!
# The parser

`nlohmann::json::parse` of the vendored library: `parser::sax_parse_internal`, which
drives the loop over the tokens with a stack of the arrays and objects it is in, and
`json_sax_dom_parser`, which builds the value.  The two stacks always have the same
height and are one here; each entry holds what its array or object has so far and, in
an object, the key of the value to come.

`ValueTokens` is the grammar of the values over tokens.  Each of its relations says
which tokens spell something and which are left behind it.

* `readsOff` — what the tokens that are left have to be for the parser to succeed, given
  what it has on its stack (`Closes`);
* `parse_iff` — the parser accepts exactly the JSON texts, each with its value.
-/

namespace JsonText

open CText Doubles LabelledRuns

/-! ## The parser -/

/-- `operator[]` on an object, and the assignment to what it returns: the member of
the key is replaced, or put where the order of the keys wants it. -/
def insertMember (key : Bytes) (value : Json) : List (Bytes × Json) → List (Bytes × Json)
  | [] => [(key, value)]
  | (k, v) :: rest =>
      if key = k then (k, value) :: rest
      else if key < k then (key, value) :: (k, v) :: rest
      else (k, v) :: insertMember key value rest

/-- An array or an object that is being read. -/
inductive Container where
  | array (elements : List Json)
  | object (members : List (Bytes × Json)) (key : Bytes)

/-- Where the parser calls `get_token`, with its stack. -/
inductive ParserState where
  | value (stack : List Container)
  | arrayStart (stack : List Container)
  | objectStart (stack : List Container)
  | objectKey (members : List (Bytes × Json)) (stack : List Container)
  | separator (members : List (Bytes × Json)) (key : Bytes) (stack : List Container)
  | afterValue (v : Json) (stack : List Container)
  | parsed (v : Json)

/-- The value of a token that is one by itself.  A number that is not finite is an
error. -/
def scalar : Token → Option Json
  | .literalNull => some .null
  | .literalTrue => some (.boolean true)
  | .literalFalse => some (.boolean false)
  | .valueString s => some (.string s)
  | .valueUnsigned n => some (.numberUnsigned n)
  | .valueInteger n => some (.numberInteger n)
  | .valueFloat x => if x.isFinite then some (.numberFloat x) else none
  | _ => none

/-- The `switch` at the top of the loop. -/
def valueStep (token : Token) (stack : List Container) : Option ParserState :=
  match token with
  | .beginObject => some (.objectStart stack)
  | .beginArray => some (.arrayStart stack)
  | token => (scalar token).map fun v => .afterValue v stack

/-- What the parser does with the next token; `none` is the exception. -/
def parserStep : ParserState → Token → Option ParserState
  | .value stack, token => valueStep token stack
  | .arrayStart stack, token =>
      match token with
      | .endArray => some (.afterValue (.array []) stack)
      | token => valueStep token (.array [] :: stack)
  | .objectStart stack, token =>
      match token with
      | .endObject => some (.afterValue (.object []) stack)
      | .valueString key => some (.separator [] key stack)
      | _ => none
  | .objectKey members stack, token =>
      match token with
      | .valueString key => some (.separator members key stack)
      | _ => none
  | .separator members key stack, token =>
      match token with
      | .nameSeparator => some (.value (.object members key :: stack))
      | _ => none
  | .afterValue v [], token =>
      match token with
      | .endOfInput => some (.parsed v)
      | _ => none
  | .afterValue v (.array elements :: stack), token =>
      match token with
      | .valueSeparator => some (.value (.array (elements ++ [v]) :: stack))
      | .endArray => some (.afterValue (.array (elements ++ [v])) stack)
      | _ => none
  | .afterValue v (.object members key :: stack), token =>
      match token with
      | .valueSeparator => some (.objectKey (insertMember key v members) stack)
      | .endObject => some (.afterValue (.object (insertMember key v members)) stack)
      | _ => none
  | .parsed _, _ => none

/-- `json::parse` of a whole message. -/
def parse (strtod : Bytes → Double) (message : Bytes) : Option Json := do
  let input ← skipBom message
  match ← exec parserStep (.value []) (tokens strtod input) with
  | .parsed v => some v
  | _ => none

/-! ## The grammar -/

/-- The members of an object, put into it in turn. -/
def assemble (members : List (Bytes × Json)) : List (Bytes × Json) → List (Bytes × Json)
  | [] => members
  | (key, v) :: rest => assemble (insertMember key v members) rest

mutual

/-- The tokens of a value, the value and the tokens behind it. -/
inductive ValueTokens : List Token → Json → List Token → Prop
  | scalar {token : Token} {v : Json} {rest : List Token} : scalar token = some v →
      ValueTokens (token :: rest) v rest
  | emptyArray {rest : List Token} :
      ValueTokens (.beginArray :: .endArray :: rest) (.array []) rest
  | array {ts mid rest : List Token} {v : Json} {vs : List Json} : ValueTokens ts v mid →
      MoreElements mid vs rest → ValueTokens (.beginArray :: ts) (.array (v :: vs)) rest
  | emptyObject {rest : List Token} :
      ValueTokens (.beginObject :: .endObject :: rest) (.object []) rest
  | object {ts mid rest : List Token} {key : Bytes} {v : Json} {more : List (Bytes × Json)} :
      ValueTokens ts v mid → MoreMembers mid more rest →
      ValueTokens (.beginObject :: .valueString key :: .nameSeparator :: ts)
        (.object (assemble [] ((key, v) :: more))) rest

/-- The tokens behind an element: further elements and the closing bracket. -/
inductive MoreElements : List Token → List Json → List Token → Prop
  | close {rest : List Token} : MoreElements (.endArray :: rest) [] rest
  | more {ts mid rest : List Token} {v : Json} {vs : List Json} : ValueTokens ts v mid →
      MoreElements mid vs rest → MoreElements (.valueSeparator :: ts) (v :: vs) rest

/-- The tokens behind a member: further members and the closing brace. -/
inductive MoreMembers : List Token → List (Bytes × Json) → List Token → Prop
  | close {rest : List Token} : MoreMembers (.endObject :: rest) [] rest
  | more {ts mid rest : List Token} {key : Bytes} {v : Json} {more : List (Bytes × Json)} :
      ValueTokens ts v mid → MoreMembers mid more rest →
      MoreMembers (.valueSeparator :: .valueString key :: .nameSeparator :: ts)
        ((key, v) :: more) rest

end

/-- What the tokens behind a value have to be, given the stack, for the whole input
to be read as `j`. -/
def Closes : List Container → Json → List Token → Json → Prop
  | [], v, ts, j => ts = [.endOfInput] ∧ v = j
  | .array elements :: stack, v, ts, j => ∃ vs rest, MoreElements ts vs rest ∧
      Closes stack (.array (elements ++ v :: vs)) rest j
  | .object members key :: stack, v, ts, j => ∃ more rest, MoreMembers ts more rest ∧
      Closes stack (.object (assemble (insertMember key v members) more)) rest j

/-! ## The parser and the grammar -/

/-- The parser succeeds from a state over the tokens. -/
def Parses (s : ParserState) (ts : List Token) (j : Json) : Prop :=
  exec parserStep s ts = some (.parsed j)

/-- A token that the parser takes. -/
theorem parses_cons {s s' : ParserState} {token : Token} (h : parserStep s token = some s')
    (ts : List Token) (j : Json) : Parses s (token :: ts) j ↔ Parses s' ts j := by
  rw [Parses, exec_cons_of_step h, Parses]

/-- A token that it does not take. -/
theorem not_parses_cons {s : ParserState} {token : Token} (h : parserStep s token = none)
    (ts : List Token) (j : Json) : ¬ Parses s (token :: ts) j := by
  intro hparses
  rw [Parses, exec, h] at hparses
  cases hparses

/-- Without tokens nothing is parsed but a value that was complete. -/
theorem not_parses_nil {s : ParserState} (h : ∀ j, s ≠ .parsed j) (j : Json) :
    ¬ Parses s [] j := by
  intro hparses
  exact h j (Option.some.inj hparses)

/-- No value is spelled without tokens. -/
theorem not_valueTokens_nil {v : Json} {rest : List Token} : ¬ ValueTokens [] v rest := by
  intro h
  cases h

/-- A token that is a value by itself spells that value only. -/
theorem valueTokens_scalar {token : Token} {v v' : Json} {ts rest : List Token}
    (h : scalar token = some v) : ValueTokens (token :: ts) v' rest ↔ v' = v ∧ rest = ts := by
  constructor
  · intro hvalue
    cases hvalue with
    | scalar h' => exact ⟨Option.some.inj (h'.symm.trans h), rfl⟩
    | emptyArray => cases h
    | array _ _ => cases h
    | emptyObject => cases h
    | object _ _ => cases h
  · intro hparts
    obtain ⟨rfl, rfl⟩ := hparts
    exact .scalar h

/-- What a value can begin with. -/
theorem valueStep_ne_none {token : Token} {v : Json} {ts rest : List Token}
    (h : ValueTokens (token :: ts) v rest) (stack : List Container) :
    valueStep token stack ≠ none := by
  cases h with
  | scalar hscalar =>
      cases token with
      | beginArray => simp [valueStep]
      | beginObject => simp [valueStep]
      | _ => simp [valueStep, hscalar]
  | emptyArray => simp [valueStep]
  | array _ _ => simp [valueStep]
  | emptyObject => simp [valueStep]
  | object _ _ => simp [valueStep]

/-- The parser reads values off the front of the tokens, and then closes what it has
on its stack. -/
structure ReadsOff (ts : List Token) : Prop where
  value : ∀ stack j, Parses (.value stack) ts j ↔
    ∃ v rest, ValueTokens ts v rest ∧ Closes stack v rest j
  afterValue : ∀ v stack j, Parses (.afterValue v stack) ts j ↔ Closes stack v ts j

section Step

variable {ts : List Token} {stack : List Container} {j : Json}

/-- Such a token is read off. -/
theorem readsOff_scalar {token : Token} {v : Json} (hscalar : scalar token = some v)
    (hts : ReadsOff ts) :
    Parses (.value stack) (token :: ts) j ↔
      ∃ v rest, ValueTokens (token :: ts) v rest ∧ Closes stack v rest j := by
  have hstep : parserStep (.value stack) token = some (.afterValue v stack) := by
    cases token with
    | beginArray => cases hscalar
    | beginObject => cases hscalar
    | _ => simp [parserStep, valueStep, hscalar]
  rw [parses_cons hstep, hts.afterValue]
  constructor
  · intro hcloses
    exact ⟨v, ts, .scalar hscalar, hcloses⟩
  · intro hexists
    obtain ⟨v', rest, hvalue, hcloses⟩ := hexists
    obtain ⟨rfl, rfl⟩ := (valueTokens_scalar hscalar).mp hvalue
    exact hcloses

/-- Behind `[` the tokens have to spell the rest of an array, and then close the stack. -/
theorem readsOff_beginArray (hall : ∀ rest : List Token, rest.length ≤ ts.length → ReadsOff rest) :
    Parses (.value stack) (.beginArray :: ts) j ↔
      ∃ v rest, ValueTokens (.beginArray :: ts) v rest ∧ Closes stack v rest j := by
  rw [parses_cons rfl]
  constructor
  · intro hparses
    cases ts with
    | nil => exact absurd hparses (not_parses_nil (by simp) j)
    | cons token ts =>
        by_cases hend : token = .endArray
        · subst hend
          rw [parses_cons rfl, (hall ts (by simp)).afterValue] at hparses
          exact ⟨_, _, .emptyArray, hparses⟩
        · have hvalue : Parses (.value (.array [] :: stack)) (token :: ts) j := by
            have hstep : parserStep (.arrayStart stack) token =
                parserStep (.value (.array [] :: stack)) token := by
              cases token with
              | endArray => exact absurd rfl hend
              | _ => rfl
            rw [Parses, exec, ← hstep]
            exact hparses
          obtain ⟨v, mid, hv, vs, rest, hmore, hcloses⟩ :=
            ((hall (token :: ts) (Nat.le_refl _)).value _ j).mp hvalue
          exact ⟨_, rest, .array hv hmore, hcloses⟩
  · intro hexists
    obtain ⟨v, rest, hvalue, hcloses⟩ := hexists
    cases hvalue with
    | scalar h => cases h
    | emptyArray =>
        rw [parses_cons rfl, (hall rest (by simp)).afterValue]
        exact hcloses
    | @array _ mid _ v vs hv hmore =>
        cases ts with
        | nil => exact absurd hv not_valueTokens_nil
        | cons token ts =>
            have hstep : parserStep (.arrayStart stack) token =
                parserStep (.value (.array [] :: stack)) token := by
              have hne := valueStep_ne_none hv stack
              cases token with
              | endArray => exact absurd rfl hne
              | _ => rfl
            have hparses := ((hall (token :: ts) (Nat.le_refl _)).value (.array [] :: stack) j).mpr
              ⟨v, mid, hv, vs, rest, hmore, hcloses⟩
            rw [Parses, exec, hstep]
            exact hparses

/-- From a key on, the parser reads the separator, the value and further members. -/
theorem parses_separator {members : List (Bytes × Json)} {key : Bytes}
    (hall : ∀ rest : List Token, rest.length ≤ ts.length → ReadsOff rest) :
    Parses (.separator members key stack) ts j ↔
      ∃ ts' v mid more rest, ts = .nameSeparator :: ts' ∧ ValueTokens ts' v mid ∧
        MoreMembers mid more rest ∧
        Closes stack (.object (assemble members ((key, v) :: more))) rest j := by
  constructor
  · intro hparses
    cases ts with
    | nil => exact absurd hparses (not_parses_nil (by simp) j)
    | cons token ts =>
        cases token with
        | nameSeparator =>
            rw [parses_cons rfl, (hall ts (by simp)).value] at hparses
            obtain ⟨v, mid, hv, more, rest, hmore, hcloses⟩ := hparses
            exact ⟨ts, v, mid, more, rest, rfl, hv, hmore, hcloses⟩
        | _ => exact absurd hparses (not_parses_cons rfl ts j)
  · intro hexists
    obtain ⟨ts', v, mid, more, rest, rfl, hv, hmore, hcloses⟩ := hexists
    rw [parses_cons rfl, (hall ts' (by simp)).value]
    exact ⟨v, mid, hv, more, rest, hmore, hcloses⟩

/-- Behind an opening brace the rest of an object. -/
theorem readsOff_beginObject
    (hall : ∀ rest : List Token, rest.length ≤ ts.length → ReadsOff rest) :
    Parses (.value stack) (.beginObject :: ts) j ↔
      ∃ v rest, ValueTokens (.beginObject :: ts) v rest ∧ Closes stack v rest j := by
  rw [parses_cons rfl]
  constructor
  · intro hparses
    cases ts with
    | nil => exact absurd hparses (not_parses_nil (by simp) j)
    | cons token ts =>
        cases token with
        | endObject =>
            rw [parses_cons rfl, (hall ts (by simp)).afterValue] at hparses
            exact ⟨_, _, .emptyObject, hparses⟩
        | valueString key =>
            rw [parses_cons rfl,
              parses_separator fun rest h => hall rest (Nat.le_succ_of_le h)] at hparses
            obtain ⟨ts', v, mid, more, rest, rfl, hv, hmore, hcloses⟩ := hparses
            exact ⟨_, rest, .object hv hmore, hcloses⟩
        | _ => exact absurd hparses (not_parses_cons rfl ts j)
  · intro hexists
    obtain ⟨v, rest, hvalue, hcloses⟩ := hexists
    cases hvalue with
    | scalar h => cases h
    | emptyObject =>
        rw [parses_cons rfl, (hall rest (by simp)).afterValue]
        exact hcloses
    | object hv hmore =>
        rw [parses_cons rfl, parses_separator fun rest h => hall rest (Nat.le_succ_of_le h)]
        exact ⟨_, _, _, _, _, rfl, hv, hmore, hcloses⟩

/-- In front of a value, by cases on its first token. -/
theorem readsOff_value (token : Token)
    (hall : ∀ rest : List Token, rest.length ≤ ts.length → ReadsOff rest) :
    Parses (.value stack) (token :: ts) j ↔
      ∃ v rest, ValueTokens (token :: ts) v rest ∧ Closes stack v rest j := by
  cases hscalar : scalar token with
  | some v => exact readsOff_scalar hscalar (hall ts (Nat.le_refl _))
  | none =>
      by_cases harray : token = .beginArray
      · exact harray ▸ readsOff_beginArray hall
      · by_cases hobject : token = .beginObject
        · exact hobject ▸ readsOff_beginObject hall
        · have hstep : valueStep token stack = none := by
            cases token with
            | beginArray => exact absurd rfl harray
            | beginObject => exact absurd rfl hobject
            | _ => simp [valueStep, hscalar]
          have hnone : parserStep (.value stack) token = none := hstep
          refine iff_of_false (not_parses_cons hnone ts j) fun hexists => ?_
          obtain ⟨v, rest, hvalue, -⟩ := hexists
          exact valueStep_ne_none hvalue stack hstep

/-- Nothing closes without tokens. -/
theorem not_closes_nil {v : Json} : ¬ Closes stack v [] j := by
  intro hcloses
  cases stack with
  | nil => cases hcloses.1
  | cons container stack =>
      cases container with
      | array elements =>
          obtain ⟨vs, rest, hmore, -⟩ := hcloses
          cases hmore
      | object members key =>
          obtain ⟨more, rest, hmore, -⟩ := hcloses
          cases hmore

/-- Behind the whole value the input has to end. -/
theorem parses_afterRoot (token : Token) {v : Json} :
    Parses (.afterValue v []) (token :: ts) j ↔ Closes [] v (token :: ts) j := by
  cases token with
  | endOfInput =>
      rw [parses_cons rfl]
      cases ts with
      | nil => simp [Parses, exec, Closes]
      | cons token ts =>
          refine iff_of_false (not_parses_cons rfl ts j) fun hcloses => ?_
          cases hcloses.1
  | _ =>
      refine iff_of_false (not_parses_cons rfl ts j) fun hcloses => ?_
      cases hcloses.1

/-- Behind an element a comma leads to another one, and the bracket closes the array. -/
theorem parses_afterElement (token : Token) {elements : List Json} {v : Json} (hts : ReadsOff ts) :
    Parses (.afterValue v (.array elements :: stack)) (token :: ts) j ↔
      Closes (.array elements :: stack) v (token :: ts) j := by
  cases token with
  | valueSeparator =>
      rw [parses_cons rfl, hts.value]
      constructor
      · intro hexists
        obtain ⟨v', mid, hv, vs, rest, hmore, hcloses⟩ := hexists
        refine ⟨v' :: vs, rest, .more hv hmore, ?_⟩
        rw [List.append_cons]
        exact hcloses
      · intro hcloses
        obtain ⟨vs, rest, hmore, hcloses⟩ := hcloses
        cases hmore with
        | more hv hmore =>
            rw [List.append_cons] at hcloses
            exact ⟨_, _, hv, _, rest, hmore, hcloses⟩
  | endArray =>
      rw [parses_cons rfl, hts.afterValue]
      constructor
      · intro hcloses
        exact ⟨[], ts, .close, hcloses⟩
      · intro hcloses
        obtain ⟨vs, rest, hmore, hcloses⟩ := hcloses
        cases hmore with
        | close => exact hcloses
  | _ =>
      refine iff_of_false (not_parses_cons rfl ts j) fun hcloses => ?_
      obtain ⟨vs, rest, hmore, -⟩ := hcloses
      cases hmore

/-- Where a further key is due, the parser reads it, the separator, the value and further
members. -/
theorem parses_objectKey {members : List (Bytes × Json)}
    (hall : ∀ rest : List Token, rest.length ≤ ts.length → ReadsOff rest) :
    Parses (.objectKey members stack) ts j ↔
      ∃ key ts' v mid more rest, ts = .valueString key :: .nameSeparator :: ts' ∧
        ValueTokens ts' v mid ∧ MoreMembers mid more rest ∧
        Closes stack (.object (assemble members ((key, v) :: more))) rest j := by
  constructor
  · intro hparses
    cases ts with
    | nil => exact absurd hparses (not_parses_nil (by simp) j)
    | cons token ts =>
        cases token with
        | valueString key =>
            rw [parses_cons rfl, parses_separator
              fun rest h => hall rest (Nat.le_succ_of_le h)] at hparses
            obtain ⟨ts', v, mid, more, rest, rfl, hparts⟩ := hparses
            exact ⟨key, ts', v, mid, more, rest, rfl, hparts⟩
        | _ => exact absurd hparses (not_parses_cons rfl ts j)
  · intro hexists
    obtain ⟨key, ts', v, mid, more, rest, rfl, hparts⟩ := hexists
    rw [parses_cons rfl, parses_separator fun rest h => hall rest (Nat.le_succ_of_le h)]
    exact ⟨ts', v, mid, more, rest, rfl, hparts⟩

/-- Behind a member a comma leads to another one, and the brace closes the object. -/
theorem parses_afterMember (token : Token) {members : List (Bytes × Json)} {key : Bytes} {v : Json}
    (hall : ∀ rest : List Token, rest.length ≤ ts.length → ReadsOff rest) :
    Parses (.afterValue v (.object members key :: stack)) (token :: ts) j ↔
      Closes (.object members key :: stack) v (token :: ts) j := by
  cases token with
  | valueSeparator =>
      rw [parses_cons rfl, parses_objectKey hall]
      constructor
      · intro hexists
        obtain ⟨key', ts', v', mid, more, rest, rfl, hv, hmore, hcloses⟩ := hexists
        exact ⟨(key', v') :: more, rest, .more hv hmore, hcloses⟩
      · intro hcloses
        obtain ⟨more, rest, hmore, hcloses⟩ := hcloses
        cases hmore with
        | more hv hmore => exact ⟨_, _, _, _, _, rest, rfl, hv, hmore, hcloses⟩
  | endObject =>
      rw [parses_cons rfl, (hall ts (Nat.le_refl _)).afterValue]
      constructor
      · intro hcloses
        exact ⟨[], ts, .close, hcloses⟩
      · intro hcloses
        obtain ⟨more, rest, hmore, hcloses⟩ := hcloses
        cases hmore with
        | close => exact hcloses
  | _ =>
      refine iff_of_false (not_parses_cons rfl ts j) fun hcloses => ?_
      obtain ⟨more, rest, hmore, -⟩ := hcloses
      cases hmore

/-- Behind a value the tokens have to close the stack. -/
theorem readsOff_afterValue {v : Json}
    (hall : ∀ rest : List Token, rest.length < ts.length → ReadsOff rest) :
    Parses (.afterValue v stack) ts j ↔ Closes stack v ts j := by
  cases ts with
  | nil => exact iff_of_false (not_parses_nil (by simp) j) not_closes_nil
  | cons token ts =>
      have hts : ∀ rest : List Token, rest.length ≤ ts.length → ReadsOff rest :=
        fun rest h => hall rest (Nat.lt_succ_of_le h)
      cases stack with
      | nil => exact parses_afterRoot token
      | cons container stack =>
          cases container with
          | array elements => exact parses_afterElement token (hts ts (Nat.le_refl _))
          | object members key => exact parses_afterMember token hts

end Step

/-- Any number of tokens is read off, by induction on a bound of it. -/
theorem readsOff_of_length_lt :
    ∀ (n : Nat) (ts : List Token), ts.length < n → ReadsOff ts := by
  intro n
  induction n with
  | zero =>
      intro ts hlength
      exact absurd hlength (Nat.not_lt_zero _)
  | succ n ih =>
      intro ts hlength
      refine ⟨fun stack j => ?_, fun v stack j => readsOff_afterValue fun rest h => ih rest ?_⟩
      · cases ts with
        | nil =>
            refine iff_of_false (not_parses_nil (by simp) j) fun hexists => ?_
            obtain ⟨v, rest, hvalue, -⟩ := hexists
            exact not_valueTokens_nil hvalue
        | cons token ts =>
            rw [List.length_cons] at hlength
            exact readsOff_value token fun rest h => ih rest (by omega)
      · omega

/-- The parser and the grammar agree on all tokens. -/
theorem readsOff (ts : List Token) : ReadsOff ts :=
  readsOff_of_length_lt (ts.length + 1) ts (Nat.lt_succ_self _)

mutual

/-- What is left behind a value does not matter to it. -/
theorem ValueTokens.frame {ts : List Token} {v : Json} {rest : List Token} :
    ValueTokens ts v rest →
      ∃ front, ts = front ++ rest ∧ ∀ rest', ValueTokens (front ++ rest') v rest'
  | @ValueTokens.scalar token _ _ hscalar => ⟨[token], rfl, fun _ => .scalar hscalar⟩
  | .emptyArray => ⟨[.beginArray, .endArray], rfl, fun _ => .emptyArray⟩
  | .array hv hmore => by
      have hvalue := hv.frame
      have hrest := hmore.frame
      obtain ⟨front', rfl, hrest⟩ := hrest
      obtain ⟨front, rfl, hvalue⟩ := hvalue
      refine ⟨.beginArray :: (front ++ front'), by simp, fun rest' => ?_⟩
      rw [List.cons_append, List.append_assoc]
      exact .array (hvalue _) (hrest rest')
  | .emptyObject => ⟨[.beginObject, .endObject], rfl, fun _ => .emptyObject⟩
  | @ValueTokens.object _ _ _ key _ _ hv hmore => by
      have hvalue := hv.frame
      have hrest := hmore.frame
      obtain ⟨front', rfl, hrest⟩ := hrest
      obtain ⟨front, rfl, hvalue⟩ := hvalue
      refine ⟨.beginObject :: .valueString key :: .nameSeparator :: (front ++ front'), by simp,
        fun rest' => ?_⟩
      rw [List.cons_append, List.cons_append, List.cons_append, List.append_assoc]
      exact .object (hvalue _) (hrest rest')

/-- The tokens behind the elements of an array do not matter. -/
theorem MoreElements.frame {ts : List Token} {vs : List Json} {rest : List Token} :
    MoreElements ts vs rest →
      ∃ front, ts = front ++ rest ∧ ∀ rest', MoreElements (front ++ rest') vs rest'
  | .close => ⟨[.endArray], rfl, fun _ => .close⟩
  | .more hv hmore => by
      have hvalue := hv.frame
      have hrest := hmore.frame
      obtain ⟨front', rfl, hrest⟩ := hrest
      obtain ⟨front, rfl, hvalue⟩ := hvalue
      refine ⟨.valueSeparator :: (front ++ front'), by simp, fun rest' => ?_⟩
      rw [List.cons_append, List.append_assoc]
      exact .more (hvalue _) (hrest rest')

/-- Nor do those behind the members of an object. -/
theorem MoreMembers.frame {ts : List Token} {more : List (Bytes × Json)} {rest : List Token} :
    MoreMembers ts more rest →
      ∃ front, ts = front ++ rest ∧ ∀ rest', MoreMembers (front ++ rest') more rest'
  | .close => ⟨[.endObject], rfl, fun _ => .close⟩
  | @MoreMembers.more _ _ _ key _ _ hv hmore => by
      have hvalue := hv.frame
      have hrest := hmore.frame
      obtain ⟨front', rfl, hrest⟩ := hrest
      obtain ⟨front, rfl, hvalue⟩ := hvalue
      refine ⟨.valueSeparator :: .valueString key :: .nameSeparator :: (front ++ front'),
        by simp, fun rest' => ?_⟩
      rw [List.cons_append, List.cons_append, List.cons_append, List.append_assoc]
      exact .more (hvalue _) (hrest rest')

end

/-- The tokens of an input spell a value exactly when the parser succeeds on them. -/
theorem parses_tokens_iff {strtod : Bytes → Double} {input : Bytes} {j : Json} :
    Parses (.value []) (tokens strtod input) j ↔
      ∃ ts, Spelled strtod input ts ∧ ValueTokens ts j [] := by
  rw [(readsOff _).value]
  constructor
  · intro hexists
    obtain ⟨v, rest, hvalue, rfl, rfl⟩ := hexists
    obtain ⟨front, hfront, hframe⟩ := hvalue.frame
    refine ⟨front, tokens_iff.mp hfront, ?_⟩
    have hnil := hframe []
    rwa [List.append_nil] at hnil
  · intro hexists
    obtain ⟨ts, hspelled, hvalue⟩ := hexists
    obtain ⟨front, hfront, hframe⟩ := hvalue.frame
    rw [List.append_nil] at hfront
    subst hfront
    exact ⟨j, [.endOfInput], tokens_iff.mpr hspelled ▸ hframe [.endOfInput], rfl, rfl⟩

/-- A message is parsed when the parser succeeds on its tokens. -/
theorem parse_eq_some {strtod : Bytes → Double} {message : Bytes} {j : Json} :
    parse strtod message = some j ↔
      ∃ input, skipBom message = some input ∧ Parses (.value []) (tokens strtod input) j := by
  have hrun : ∀ input, (exec parserStep (.value []) (tokens strtod input)).bind (fun s =>
      match s with
      | .parsed v => some v
      | _ => none) = some j ↔ Parses (.value []) (tokens strtod input) j := by
    intro input
    rw [Parses]
    cases exec parserStep (.value []) (tokens strtod input) with
    | none => simp
    | some s => cases s <;> simp
  rw [parse]
  cases hbom : skipBom message with
  | none => simp
  | some input =>
      simp only [Option.bind_eq_bind, Option.bind_some, Option.some.injEq, exists_eq_left']
      rw [← hrun]

/-- **The parser is exact.**  It accepts the byte strings whose tokens, behind a byte
order mark if there is one, spell a value, and returns that value. -/
theorem parse_iff {strtod : Bytes → Double} {message : Bytes} {j : Json} :
    parse strtod message = some j ↔
      ∃ input ts, skipBom message = some input ∧ Spelled strtod input ts ∧
        ValueTokens ts j [] := by
  simp only [parse_eq_some, parses_tokens_iff, exists_and_left]

end JsonText
