import BlockstreamStation.JsonParser
import BlockstreamStation.JsonSerializer

/-!
# Dumping and parsing

What the serializer writes is read back by the parser, up to the kind of an integer:
one that is not negative is read as unsigned (`Json.reread`).  Of floating point
numbers this takes that they are finite and that `strtod` rounds to nearest
(`Readable`).

* `spells_of_wellformed` — the text of a value spells tokens of the value, whatever
  delimiter comes behind it;
* `parse_of_dumpValue` — a dumped value is parsed;
* `wellformed_of_valueTokens` — what the parser returns can be dumped.
-/

namespace JsonText

open CText CodePoints Doubles

/-! ## Texts in front of a delimiter -/

/-- A byte that can follow a value. -/
def Delimiter (b : UInt8) : Prop := b = 44 ∨ b = 93 ∨ b = 125

def Delimited (rest : Bytes) : Prop := ∀ b tail, rest = b :: tail → Delimiter b

/-- The bytes of numbers. -/
def NumberByte (b : UInt8) : Prop := IsDigit b ∨ b = 43 ∨ b = 45 ∨ b = 46 ∨ IsExponent b

/-- Digits are bytes of numbers. -/
theorem numberByte_digits {t : Bytes} (h : AllDigits t) : ∀ b ∈ t, NumberByte b :=
  fun b hb => .inl (h b hb)

/-- The digits before the point. -/
theorem numberByte_intPart {t : Bytes} (h : IntPart t) : ∀ b ∈ t, NumberByte b := by
  cases h with
  | zero => exact numberByte_digits (by simp [AllDigits, IsDigit])
  | digits hb _ hds => exact numberByte_digits (allDigits_cons.mpr ⟨hb, hds⟩)

/-- The point and the digits behind it. -/
theorem numberByte_fracPart {t : Bytes} (h : FracPart t) : ∀ b ∈ t, NumberByte b := by
  cases h with
  | absent => simp
  | present _ hds =>
      exact List.forall_mem_cons.mpr ⟨.inr (.inr (.inr (.inl rfl))), numberByte_digits hds⟩

/-- The letter, the sign and the digits of the exponent. -/
theorem numberByte_expPart {t : Bytes} (h : ExpPart t) : ∀ b ∈ t, NumberByte b := by
  cases h with
  | absent => simp
  | present he hsign _ hds =>
      refine List.forall_mem_cons.mpr ⟨.inr (.inr (.inr (.inr he))), ?_⟩
      refine List.forall_mem_append.mpr ⟨?_, numberByte_digits hds⟩
      grind [NumberByte]

/-- Numbers consist of their bytes. -/
theorem numberByte_of_numberText {type : NumberType} {t : Bytes} (h : NumberText type t) :
    ∀ b ∈ t, NumberByte b := by
  cases h with
  | unsigned hint => exact numberByte_intPart hint
  | integer hint =>
      exact List.forall_mem_cons.mpr ⟨.inr (.inr (.inl rfl)), numberByte_intPart hint⟩
  | float hminus hint hfrac hexp _ =>
      refine List.forall_mem_append.mpr ⟨?_, List.forall_mem_append.mpr
        ⟨numberByte_intPart hint, List.forall_mem_append.mpr
          ⟨numberByte_fracPart hfrac, numberByte_expPart hexp⟩⟩⟩
      intro b hb
      obtain rfl | rfl := hminus
      · cases hb
      · exact .inr (.inr (.inl (List.mem_singleton.mp hb)))

/-- No number goes on with a delimiter. -/
theorem not_continues_delimiter {b : UInt8} (h : Delimiter b) (t : Bytes) : ¬ Continues t b := by
  intro hcontinues
  obtain ⟨type, more, hnumber⟩ := hcontinues
  have hbyte := numberByte_of_numberText hnumber b (by simp)
  obtain rfl | rfl | rfl := h <;> revert hbyte <;> unfold NumberByte IsExponent <;> decide

section Spelling

variable (strtod : Bytes → Double)

/-- The text spells the tokens if the end or a delimiter comes behind it. -/
def Spells (t : Bytes) (ts : List Token) : Prop :=
  ∀ rest more, Delimited rest → Spelled strtod rest more → Spelled strtod (t ++ rest) (ts ++ more)

variable {strtod}

/-- The text of one token. -/
theorem spells_token {token : Token} {t : Bytes} (h : TokenText strtod token t) :
    Spells strtod t [token] := by
  intro rest more hrest hspelled
  exact @Spelled.token strtod [] t rest token more (List.forall_mem_nil _) h
    (fun b tail heq => not_continues_delimiter (hrest b tail heq) t) hspelled

/-- A token that is no number can stand in front of everything. -/
theorem Spells.cons {token : Token} {t t' : Bytes} {ts : List Token}
    (h : TokenText strtod token t) (hstop : ∀ b, ¬ Continues t b) (ht' : Spells strtod t' ts) :
    Spells strtod (t ++ t') (token :: ts) := by
  intro rest more hrest hspelled
  rw [List.append_assoc]
  exact @Spelled.token strtod [] t (t' ++ rest) token (ts ++ more) (List.forall_mem_nil _) h
    (fun b _ _ => hstop b) (ht' rest more hrest hspelled)

/-- Texts can be joined where the second one begins with a delimiter. -/
theorem Spells.append {t t' : Bytes} {ts ts' : List Token} (ht : Spells strtod t ts)
    (ht' : Spells strtod t' ts') (hne : t' ≠ []) (hdelimited : Delimited t') :
    Spells strtod (t ++ t') (ts ++ ts') := by
  intro rest more hrest hspelled
  rw [List.append_assoc, List.append_assoc]
  refine ht _ _ ?_ (ht' rest more hrest hspelled)
  cases t' with
  | nil => exact absurd rfl hne
  | cons c t' =>
      intro b tail heq
      obtain ⟨rfl, -⟩ := List.cons.inj heq
      exact hdelimited c t' rfl

/-- A whole input. -/
theorem Spells.spelled {t : Bytes} {ts : List Token} (h : Spells strtod t ts) :
    Spelled strtod t ts := by
  have hend := h [] [] (by intro b tail heq; cases heq)
    (@Spelled.done strtod [] [] (List.forall_mem_nil _) (.inl rfl))
  rwa [List.append_nil, List.append_nil] at hend

end Spelling

/-! ## Values that can be dumped -/

mutual

/-- The value that is read for a dumped value: an integer that is not negative does
not say that it was signed. -/
def Json.reread : Json → Json
  | .null => .null
  | .boolean b => .boolean b
  | .numberInteger n => if n < 0 then .numberInteger n else .numberUnsigned n.toUInt64
  | .numberUnsigned n => .numberUnsigned n
  | .numberFloat x => .numberFloat x
  | .string s => .string s
  | .array elements => .array (rereadElements elements)
  | .object members => .object (rereadEntries members)

def rereadElements : List Json → List Json
  | [] => []
  | element :: rest => element.reread :: rereadElements rest

def rereadEntries : List (Bytes × Json) → List (Bytes × Json)
  | [] => []
  | (key, value) :: rest => (key, value.reread) :: rereadEntries rest

end

/-- Strings and keys are UTF-8, the keys of an object ascend, and what is neither a
string nor a container is a `leaf`. -/
inductive Wellformed (leaf : Json → Prop) : Json → Prop
  | leaf {v : Json} : leaf v → Wellformed leaf v
  | string {s : Bytes} : Utf8 s → Wellformed leaf (.string s)
  | array {elements : List Json} : (∀ e ∈ elements, Wellformed leaf e) →
      Wellformed leaf (.array elements)
  | object {members : List (Bytes × Json)} : (∀ m ∈ members, Utf8 m.1) →
      members.Pairwise (fun m m' => m.1 < m'.1) → (∀ m ∈ members, Wellformed leaf m.2) →
      Wellformed leaf (.object members)

section RoundTrip

variable (strtod : Bytes → Double)

/-- The values without parts, with floating point numbers that `strtod` rounds to. -/
inductive Readable : Json → Prop
  | null : Readable .null
  | boolean (b : Bool) : Readable (.boolean b)
  | numberInteger (n : Int64) : Readable (.numberInteger n)
  | numberUnsigned (n : UInt64) : Readable (.numberUnsigned n)
  | numberFloat {x : Double} : RoundsTo strtod x → Readable (.numberFloat x)

/-- A value is dumped as a text that spells tokens of the value that is read for it. -/
structure ReadsBack (ensure_ascii : Bool) (v : Json) (t : Bytes) (ts : List Token) : Prop where
  dumped : dumpValue ensure_ascii v = .ok t
  spells : Spells strtod t ts
  value : ∀ left, ValueTokens (ts ++ left) v.reread left
  head : ∃ b tail, t = b :: tail ∧ b ≠ 0xEF

variable {strtod} {ensure_ascii : Bool}

/-- A numeral can stand before the point: it has no zero in front. -/
theorem intPart_numeral (n : Nat) : IntPart (numeral 10 n) := by
  have hcanonical : Canonical 10 n (numeral 10 n) := canonical_numeral (by decide) (by decide) n
  have hdigit : ∀ d < 10, IsDigit (digit d) := by unfold IsDigit; decide
  have hdigits : AllDigits (numeral 10 n) := by
    intro b hb
    obtain ⟨d, hd, rfl⟩ := hcanonical.alphabet b hb
    exact hdigit d hd
  cases htext : numeral 10 n with
  | nil => exact absurd htext hcanonical.nonempty
  | cons b ds =>
      rw [htext] at hcanonical hdigits
      obtain ⟨hb, hds⟩ := allDigits_cons.mp hdigits
      by_cases hzero : b = 48
      · subst hzero
        obtain ⟨-, rfl⟩ := List.cons.inj (hcanonical.shortest rfl)
        exact .zero
      · exact .digits hb hzero hds

/-- A token that is a value by itself. -/
theorem readsBack_scalar {v : Json} {t : Bytes} {token : Token}
    (hdump : dumpValue ensure_ascii v = .ok t) (htext : TokenText strtod token t)
    (hscalar : scalar token = some v.reread) : ReadsBack strtod ensure_ascii v t [token]
    where
  dumped := hdump
  spells := spells_token htext
  value := fun _ => .scalar hscalar
  head := by
    cases htext with
    | number hnumber =>
        obtain ⟨b, tail, rfl, hb⟩ := numberText_head hnumber
        refine ⟨b, tail, rfl, ?_⟩
        intro heq
        subst heq
        revert hb
        decide
    | string _ => exact ⟨quoteMark, _, rfl, by decide⟩
    | _ => exact ⟨_, _, rfl, by decide⟩

/-- The numeral of an unsigned number is the text of its token. -/
theorem tokenText_numeral (n : UInt64) :
    TokenText strtod (.valueUnsigned n) (numeral 10 n.toNat) := by
  have htext : TokenText strtod _ _ := .number (.unsigned (intPart_numeral n.toNat))
  have hvalue : numeralValue 10 (numeral 10 n.toNat) = n.toNat :=
    numeralValue_numeral (by decide) (by decide) n.toNat
  simp only [numberToken, hvalue, if_pos n.toNat_lt, UInt64.ofNat_toNat] at htext
  exact htext

/-- So is a minus sign with the numeral of a negative one. -/
theorem tokenText_negative {n : Int64} (h : n < 0) :
    TokenText strtod (.valueInteger n) (decimal n.toInt) := by
  have hneg : n.toInt < 0 := neg_iff_toInt.mp h
  have hlow := n.le_toInt
  have htext : TokenText strtod _ _ := .number (.integer (intPart_numeral n.toInt.natAbs))
  have hvalue : numeralValue 10 (numeral 10 n.toInt.natAbs) = n.toInt.natAbs :=
    numeralValue_numeral (by decide) (by decide) n.toInt.natAbs
  have habs : (-(n.toInt.natAbs : Int)) = n.toInt := by omega
  simp only [numberToken, List.tail_cons, hvalue] at htext
  rw [if_pos (by omega), habs, Int64.ofInt_toInt] at htext
  rw [decimal, if_pos hneg]
  exact htext

/-- A value without parts is dumped as the text of one token. -/
theorem tokenText_of_readable {v : Json} (h : Readable strtod v) :
    ∃ t token, dumpValue ensure_ascii v = .ok t ∧ TokenText strtod token t ∧
      scalar token = some v.reread := by
  have hbuffer : (List.replicate numberBufferSize (0 : UInt8)).length = numberBufferSize :=
    List.length_replicate
  cases h with
  | null => exact ⟨_, _, rfl, TokenText.literalNull, rfl⟩
  | boolean b =>
      cases b with
      | true => exact ⟨_, _, rfl, TokenText.literalTrue, rfl⟩
      | false => exact ⟨_, _, rfl, TokenText.literalFalse, rfl⟩
  | numberInteger n =>
      have hdump : dumpValue ensure_ascii (.numberInteger n) = .ok (decimal n.toInt) := by
        rw [dumpValue, dumpInteger_eq hbuffer]
      by_cases hneg : n < 0
      · refine ⟨_, _, hdump, tokenText_negative hneg, ?_⟩
        rw [Json.reread, if_pos hneg]
        rfl
      · have hge : 0 ≤ n.toInt := Int.not_lt.mp (mt neg_iff_toInt.mpr hneg)
        have hdecimal : decimal n.toInt = numeral 10 n.toUInt64.toNat := by
          have hnat := toUInt64_toNat hge
          rw [decimal, if_neg (Int.not_lt.mpr hge)]
          congr 1
          omega
        rw [hdecimal] at hdump
        refine ⟨_, _, hdump, tokenText_numeral _, ?_⟩
        rw [Json.reread, if_neg hneg]
        rfl
  | numberUnsigned n =>
      have hdump : dumpValue ensure_ascii (.numberUnsigned n) =
          .ok (numeral 10 n.toNat) := by
        rw [dumpValue, dumpUnsigned_eq hbuffer]
      refine ⟨_, _, hdump, tokenText_numeral n, ?_⟩
      rw [Json.reread]
      rfl
  | @numberFloat x hfloat =>
      obtain ⟨t, hchars, hnumber, hreads⟩ := strtod_toChars hfloat
      have hdump : dumpValue ensure_ascii (.numberFloat x) = .ok t := by
        rw [dumpValue, dumpFloat, if_pos hfloat.finite, hchars]
      have htext : TokenText strtod _ _ := .number hnumber
      rw [numberToken, hreads] at htext
      refine ⟨t, _, hdump, htext, ?_⟩
      rw [Json.reread]
      exact if_pos hfloat.finite

/-- A value without parts is read back. -/
theorem readsBack_of_readable {v : Json} (h : Readable strtod v) :
    ∃ t ts, ReadsBack strtod ensure_ascii v t ts := by
  obtain ⟨t, token, hdump, htext, hscalar⟩ := tokenText_of_readable h
  exact ⟨t, [token], readsBack_scalar hdump htext hscalar⟩

/-- A dumped string is the text of a token. -/
theorem tokenText_dumpString (strtod : Bytes → Double) (ensure_ascii : Bool) {s : Bytes}
    (h : Utf8 s) :
    ∃ t, dumpString ensure_ascii s = .ok t ∧ TokenText strtod (.valueString s) t ∧
      ∀ b, ¬ Continues t b := by
  obtain ⟨chars, rfl⟩ := utf8_iff_encode.mp h
  refine ⟨quoteMark :: (chars.flatMap (escapeChar ensure_ascii) ++ [quoteMark]), ?_,
    .string (stringBody_escapeChars ensure_ascii chars), fun b => not_continues (by decide)⟩
  rw [dumpString, dumpEscapedBuffer_encode]
  rfl

/-- The tokens of one element or more, with the closing bracket. -/
def ElementTokens (ts : List Token) (es : List Json) (left : List Token) : Prop :=
  ∃ v vs mid, es = v :: vs ∧ ValueTokens ts v mid ∧ MoreElements mid vs left

/-- The tokens of one member or more, with the closing brace. -/
def MemberTokens (ts : List Token) (ms : List (Bytes × Json)) (left : List Token) : Prop :=
  ∃ key v more ts' mid, ms = (key, v) :: more ∧
    ts = .valueString key :: .nameSeparator :: ts' ∧ ValueTokens ts' v mid ∧
    MoreMembers mid more left

/-- A comma in front. -/
theorem spells_comma {t : Bytes} {ts : List Token} (h : Spells strtod t ts) :
    Spells strtod (text "," ++ t) (.valueSeparator :: ts) :=
  .cons .valueSeparator (fun _ => not_continues (by decide)) h

/-- A text that begins with a delimiter. -/
theorem delimited_cons {b : UInt8} (h : Delimiter b) (rest : Bytes) : Delimited (b :: rest) := by
  intro c tail heq
  obtain ⟨rfl, -⟩ := List.cons.inj heq
  exact h

/-- The comma is one. -/
theorem delimiter_comma : Delimiter 44 := .inl rfl

/-- The elements of an array. -/
theorem readsBack_elements {es : List Json}
    (h : ∀ e ∈ es, ∃ t ts, ReadsBack strtod ensure_ascii e t ts) (hne : es ≠ []) :
    ∃ t ts, dumpElements ensure_ascii es = .ok t ∧ Spells strtod t ts ∧
      ∀ left, ElementTokens (ts ++ .endArray :: left) (rereadElements es) left := by
  induction es with
  | nil => exact absurd rfl hne
  | cons e es ih =>
      obtain ⟨t, ts, hdumped, hspells, hvalue, -⟩ := h e List.mem_cons_self
      cases es with
      | nil =>
          exact ⟨t, ts, hdumped, hspells, fun left =>
            ⟨_, [], _, rfl, hvalue (.endArray :: left), .close⟩⟩
      | cons e' es =>
          obtain ⟨t', ts', hdumped', hspells', htokens⟩ :=
            ih (fun e he => h e (List.mem_cons_of_mem _ he)) (by simp)
          refine ⟨t ++ text "," ++ t', ts ++ .valueSeparator :: ts', ?_, ?_, fun left => ?_⟩
          · rw [dumpElements, hdumped, hdumped']
            · rfl
            · simp
          · rw [List.append_assoc]
            exact hspells.append (spells_comma hspells') (by simp [text])
              (delimited_cons delimiter_comma _)
          · obtain ⟨v, vs, mid, heq, hv, hmore⟩ := htokens left
            refine ⟨e.reread, v :: vs, _, ?_, ?_, .more hv hmore⟩
            · rw [rereadElements, heq]
            · rw [List.append_assoc, List.cons_append]
              exact hvalue _

/-- A member of an object. -/
theorem readsBack_member {key : Bytes} {v : Json} (hkey : Utf8 key)
    (h : ∃ t ts, ReadsBack strtod ensure_ascii v t ts) :
    ∃ name t ts, dumpString ensure_ascii key = .ok name ∧
      dumpValue ensure_ascii v = .ok t ∧
      Spells strtod (name ++ text ":" ++ t) (.valueString key :: .nameSeparator :: ts) ∧
      ∀ left, ValueTokens (ts ++ left) v.reread left := by
  obtain ⟨t, ts, hdumped, hspells, hvalue, -⟩ := h
  obtain ⟨name, hname, htext, hstop⟩ :=
    tokenText_dumpString strtod ensure_ascii hkey
  refine ⟨name, t, ts, hname, hdumped, ?_, hvalue⟩
  rw [List.append_assoc]
  exact .cons htext hstop (.cons .nameSeparator (fun _ => not_continues (by decide)) hspells)

/-- The members of an object. -/
theorem readsBack_entries {ms : List (Bytes × Json)} (hkeys : ∀ m ∈ ms, Utf8 m.1)
    (h : ∀ m ∈ ms, ∃ t ts, ReadsBack strtod ensure_ascii m.2 t ts) (hne : ms ≠ []) :
    ∃ t ts, dumpEntries ensure_ascii ms = .ok t ∧ Spells strtod t ts ∧
      ∀ left, MemberTokens (ts ++ .endObject :: left) (rereadEntries ms) left := by
  induction ms with
  | nil => exact absurd rfl hne
  | cons m ms ih =>
      obtain ⟨key, v⟩ := m
      obtain ⟨name, t, ts, hname, hdumped, hspells, hvalue⟩ :=
        readsBack_member (hkeys _ List.mem_cons_self) (h _ List.mem_cons_self)
      cases ms with
      | nil =>
          refine ⟨name ++ text ":" ++ t, _, ?_, hspells, fun left =>
            ⟨key, _, [], _, _, rfl, rfl, hvalue (.endObject :: left), .close⟩⟩
          rw [dumpEntries, hname, hdumped]
          rfl
      | cons m' ms =>
          obtain ⟨t', ts', hdumped', hspells', htokens⟩ :=
            ih (fun m hm => hkeys m (List.mem_cons_of_mem _ hm))
              (fun m hm => h m (List.mem_cons_of_mem _ hm)) (by simp)
          refine ⟨name ++ text ":" ++ t ++ text "," ++ t',
            .valueString key :: .nameSeparator :: (ts ++ .valueSeparator :: ts'), ?_, ?_,
            fun left => ?_⟩
          · rw [dumpEntries, hname, hdumped, hdumped']
            · rfl
            · simp
          · rw [List.append_assoc]
            exact hspells.append (spells_comma hspells') (by simp [text])
              (delimited_cons delimiter_comma _)
          · obtain ⟨key', v', more, tokens', mid, heq, htokens', hv, hmore⟩ := htokens left
            refine ⟨key, v.reread, (key', v') :: more,
              (ts ++ .valueSeparator :: ts') ++ .endObject :: left, _, ?_, rfl, ?_, .more hv hmore⟩
            · rw [rereadEntries, heq]
            · rw [List.append_assoc, List.cons_append, htokens']
              exact hvalue _

/-- A key behind all others is put at the end. -/
theorem insertMember_of_lt {key : Bytes} {v : Json} {members : List (Bytes × Json)}
    (h : ∀ m ∈ members, m.1 < key) : insertMember key v members = members ++ [(key, v)] := by
  induction members with
  | nil => rfl
  | cons m rest ih =>
      obtain ⟨k, v'⟩ := m
      obtain ⟨hk, hrest⟩ := List.forall_mem_cons.mp h
      have hne : key ≠ k := by
        intro heq
        subst heq
        exact List.lt_irrefl key hk
      have hnot : ¬ key < k := fun hlt => List.lt_irrefl key (List.lt_trans hlt hk)
      rw [insertMember, if_neg hne, if_neg hnot, ih hrest, List.cons_append]

/-- Members with ascending keys are put behind one another. -/
theorem assemble_eq_append (more : List (Bytes × Json)) :
    ∀ members : List (Bytes × Json), (∀ m ∈ members, ∀ m' ∈ more, m.1 < m'.1) →
      more.Pairwise (fun m m' => m.1 < m'.1) → assemble members more = members ++ more := by
  induction more with
  | nil =>
      intro members _ _
      exact (List.append_nil members).symm
  | cons m more ih =>
      intro members hlt hsorted
      obtain ⟨key, v⟩ := m
      obtain ⟨hfirst, hsorted⟩ := List.pairwise_cons.mp hsorted
      rw [assemble, insertMember_of_lt fun m hm => hlt m hm _ List.mem_cons_self,
        ih _ ?_ hsorted, List.append_assoc, List.singleton_append]
      intro m hm m' hm'
      obtain hold | hnew := List.mem_append.mp hm
      · exact hlt m hold m' (List.mem_cons_of_mem _ hm')
      · obtain rfl := List.mem_singleton.mp hnew
        exact hfirst m' hm'

/-- The members are read back one by one. -/
theorem rereadEntries_eq_map (ms : List (Bytes × Json)) :
    rereadEntries ms = ms.map fun m => (m.1, m.2.reread) := by
  induction ms with
  | nil => rfl
  | cons m ms ih =>
      obtain ⟨key, v⟩ := m
      rw [rereadEntries, ih, List.map_cons]

/-- **A value is dumped as a text of its tokens.** -/
theorem readsBack_of_wellformed (ensure_ascii : Bool) {v : Json}
    (h : Wellformed (Readable strtod) v) :
    ∃ t ts, ReadsBack strtod ensure_ascii v t ts := by
  induction h with
  | leaf hleaf => exact readsBack_of_readable hleaf
  | @string s hs =>
      obtain ⟨t, hdump, htext, -⟩ :=
        tokenText_dumpString strtod ensure_ascii hs
      refine ⟨t, _, readsBack_scalar (v := .string s) hdump htext ?_⟩
      rw [Json.reread]
      rfl
  | @array es _ ih =>
      by_cases hempty : es = []
      · subst hempty
        refine ⟨text "[" ++ text "]", [.beginArray, .endArray], rfl,
          .cons .beginArray (fun _ => not_continues (by decide)) (spells_token .endArray),
          fun left => ?_, _, _, rfl, by decide⟩
        rw [Json.reread, rereadElements]
        exact .emptyArray
      · obtain ⟨t, ts, hdumped, hspells, htokens⟩ := readsBack_elements ih hempty
        refine ⟨text "[" ++ (t ++ text "]"), .beginArray :: (ts ++ [.endArray]), ?_, ?_,
          fun left => ?_, _, _, rfl, by decide⟩
        · rw [dumpValue, hdumped, ← List.append_assoc]
          rfl
        · exact .cons .beginArray (fun _ => not_continues (by decide))
            (hspells.append (spells_token .endArray) (by simp [text])
              (delimited_cons (.inr (.inl rfl)) _))
        · obtain ⟨v, vs, mid, heq, hv, hmore⟩ := htokens left
          rw [Json.reread, heq, List.cons_append, List.append_assoc]
          exact .array hv hmore
  | @object ms hkeys hsorted _ ih =>
      by_cases hempty : ms = []
      · subst hempty
        refine ⟨text "\x7b" ++ text "\x7d", [.beginObject, .endObject], rfl,
          .cons .beginObject (fun _ => not_continues (by decide)) (spells_token .endObject),
          fun left => ?_, _, _, rfl, by decide⟩
        rw [Json.reread, rereadEntries]
        exact .emptyObject
      · obtain ⟨t, ts, hdumped, hspells, htokens⟩ := readsBack_entries hkeys ih hempty
        refine ⟨text "\x7b" ++ (t ++ text "\x7d"), .beginObject :: (ts ++ [.endObject]), ?_, ?_,
          fun left => ?_, _, _, rfl, by decide⟩
        · rw [dumpValue, hdumped, ← List.append_assoc]
          rfl
        · exact .cons .beginObject (fun _ => not_continues (by decide))
            (hspells.append (spells_token .endObject) (by simp [text])
              (delimited_cons (.inr (.inr rfl)) _))
        · obtain ⟨key, v, more, ts', mid, heq, htext, hv, hmore⟩ := htokens left
          have hreread : (rereadEntries ms).Pairwise (fun m m' => m.1 < m'.1) := by
            rw [rereadEntries_eq_map]
            exact List.pairwise_map.mpr hsorted
          have hassemble := assemble_eq_append (rereadEntries ms) [] (by simp) hreread
          rw [List.nil_append, heq] at hassemble
          rw [Json.reread, heq, ← hassemble, List.cons_append, List.append_assoc,
            List.singleton_append, htext]
          exact .object hv hmore

/-- The text of a value is parsed. -/
theorem ReadsBack.parses {v : Json} {t : Bytes} {ts : List Token}
    (h : ReadsBack strtod ensure_ascii v t ts) : parse strtod t = some v.reread := by
  obtain ⟨b, tail, rfl, hb⟩ := h.head
  have hbom : skipBom (b :: tail) = some (b :: tail) := by
    unfold skipBom
    split
    · rename_i heq
      exact absurd (List.cons.inj heq).1 hb
    · rename_i heq
      exact absurd (List.cons.inj heq).1 hb
    · rfl
  have hvalue := h.value []
  rw [List.append_nil] at hvalue
  exact parse_eq_some.mpr ⟨_, hbom, parses_tokens_iff.mpr ⟨ts, h.spells.spelled, hvalue⟩⟩

end RoundTrip

/-! ## Values that were parsed -/

section Parsed

variable (strtod : Bytes → Double)

/-- The values without parts that can be parsed. -/
inductive Converted : Json → Prop
  | null : Converted .null
  | boolean (b : Bool) : Converted (.boolean b)
  | numberInteger (n : Int64) : Converted (.numberInteger n)
  | numberUnsigned (n : UInt64) : Converted (.numberUnsigned n)
  | numberFloat {x : Double} : x.isFinite = true → (∃ t, strtod t = x) →
      Converted (.numberFloat x)

/-- What the lexer puts into a token. -/
def Token.Sound : Token → Prop
  | .valueString s => Utf8 s
  | .valueFloat x => ∃ t, strtod t = x
  | _ => True

variable {strtod}

/-- A token that is spelled holds what the lexer puts into it. -/
theorem sound_of_tokenText {token : Token} {t : Bytes} (h : TokenText strtod token t) :
    token.Sound strtod := by
  cases h with
  | string _ => exact utf8_encode _
  | @number number_type t _ =>
      have hfloat : Token.Sound strtod (.valueFloat (strtod t)) := ⟨t, rfl⟩
      cases number_type with
      | unsigned =>
          simp only [numberToken]
          split_ifs
          · trivial
          · exact hfloat
      | integer =>
          simp only [numberToken]
          split_ifs
          · trivial
          · exact hfloat
      | float => exact hfloat
  | _ => trivial

/-- So do all tokens that are spelled. -/
theorem sound_of_spelled {input : Bytes} {ts : List Token} (h : Spelled strtod input ts) :
    ∀ token ∈ ts, token.Sound strtod := by
  induction h with
  | done _ _ => exact List.forall_mem_nil _
  | token _ htext _ _ ih => exact List.forall_mem_cons.mpr ⟨sound_of_tokenText htext, ih⟩

/-- A token that is a value by itself is one that can be dumped. -/
theorem wellformed_scalar {token : Token} {v : Json} (hsound : token.Sound strtod)
    (h : scalar token = some v) : Wellformed (Converted strtod) v := by
  cases token with
  | literalNull =>
      obtain rfl := Option.some.inj h
      exact .leaf .null
  | literalTrue =>
      obtain rfl := Option.some.inj h
      exact .leaf (.boolean true)
  | literalFalse =>
      obtain rfl := Option.some.inj h
      exact .leaf (.boolean false)
  | valueString s =>
      obtain rfl := Option.some.inj h
      exact .string hsound
  | valueUnsigned n =>
      obtain rfl := Option.some.inj h
      exact .leaf (.numberUnsigned n)
  | valueInteger n =>
      obtain rfl := Option.some.inj h
      exact .leaf (.numberInteger n)
  | valueFloat x =>
      rw [scalar] at h
      split_ifs at h with hfinite
      obtain rfl := Option.some.inj h
      exact .leaf (.numberFloat hfinite hsound)
  | _ => cases h

/-- A property of all members, after one is inserted. -/
theorem forall_insertMember {P : Bytes × Json → Prop} {key : Bytes} {v : Json}
    {members : List (Bytes × Json)} (hnew : P (key, v)) (h : ∀ m ∈ members, P m) :
    ∀ m ∈ insertMember key v members, P m := by
  induction members with
  | nil => exact List.forall_mem_singleton.mpr hnew
  | cons m rest ih =>
      obtain ⟨k, v'⟩ := m
      obtain ⟨hk, hrest⟩ := List.forall_mem_cons.mp h
      rw [insertMember]
      split_ifs with heq hlt
      · exact List.forall_mem_cons.mpr ⟨heq ▸ hnew, hrest⟩
      · exact List.forall_mem_cons.mpr ⟨hnew, h⟩
      · exact List.forall_mem_cons.mpr ⟨hk, ih hrest⟩

/-- The keys of an object stay in order. -/
theorem pairwise_insertMember {key : Bytes} {v : Json} {members : List (Bytes × Json)}
    (h : members.Pairwise (fun m m' => m.1 < m'.1)) :
    (insertMember key v members).Pairwise (fun m m' => m.1 < m'.1) := by
  induction members with
  | nil => exact List.pairwise_singleton _ _
  | cons m rest ih =>
      obtain ⟨k, v'⟩ := m
      obtain ⟨hfirst, hrest⟩ := List.pairwise_cons.mp h
      rw [insertMember]
      split_ifs with heq hlt
      · exact List.pairwise_cons.mpr ⟨hfirst, hrest⟩
      · refine List.pairwise_cons.mpr ⟨List.forall_mem_cons.mpr ⟨hlt, fun m hm => ?_⟩, h⟩
        exact List.lt_trans hlt (hfirst m hm)
      · refine List.pairwise_cons.mpr ⟨?_, ih hrest⟩
        refine forall_insertMember (P := fun m => k < m.1) ?_ hfirst
        by_contra hnot
        exact heq (List.le_antisymm hnot hlt)

/-- Members inserted one by one make an object that can be dumped. -/
theorem wellformed_assemble {more : List (Bytes × Json)} :
    ∀ {members : List (Bytes × Json)}, Wellformed (Converted strtod) (.object members) →
      (∀ m ∈ more, Utf8 m.1 ∧ Wellformed (Converted strtod) m.2) →
      Wellformed (Converted strtod) (.object (assemble members more)) := by
  induction more with
  | nil =>
      intro members h _
      exact h
  | cons m more ih =>
      intro members h hmore
      obtain ⟨key, v⟩ := m
      obtain ⟨⟨hkey, hv⟩, hmore⟩ := List.forall_mem_cons.mp hmore
      refine ih ?_ hmore
      cases h with
      | leaf hleaf => cases hleaf
      | object hkeys hsorted hvalues =>
          exact .object (forall_insertMember (P := fun m => Utf8 m.1) hkey hkeys)
            (pairwise_insertMember hsorted)
            (forall_insertMember (P := fun m => Wellformed (Converted strtod) m.2) hv hvalues)

mutual

/-- What sound tokens spell is a value that can be dumped. -/
theorem wellformed_of_valueTokens {ts rest : List Token} {v : Json} :
    ValueTokens ts v rest → (∀ token ∈ ts, token.Sound strtod) →
      Wellformed (Converted strtod) v ∧ ∀ token ∈ rest, token.Sound strtod
  | .scalar hscalar, hts =>
      have hparts := List.forall_mem_cons.mp hts
      ⟨wellformed_scalar hparts.1 hscalar, hparts.2⟩
  | .emptyArray, hts =>
      have hparts := List.forall_mem_cons.mp hts
      have hrest := List.forall_mem_cons.mp hparts.2
      ⟨.array (List.forall_mem_nil _), hrest.2⟩
  | .array hv hmore, hts =>
      have hvalue := wellformed_of_valueTokens hv (List.forall_mem_cons.mp hts).2
      have helements := wellformed_of_moreElements hmore hvalue.2
      ⟨.array (List.forall_mem_cons.mpr ⟨hvalue.1, helements.1⟩), helements.2⟩
  | .emptyObject, hts =>
      have hparts := List.forall_mem_cons.mp hts
      have hrest := List.forall_mem_cons.mp hparts.2
      ⟨.object (List.forall_mem_nil _) .nil (List.forall_mem_nil _), hrest.2⟩
  | .object hv hmore, hts =>
      have hkey := List.forall_mem_cons.mp (List.forall_mem_cons.mp hts).2
      have hvalue := wellformed_of_valueTokens hv (List.forall_mem_cons.mp hkey.2).2
      have hmembers := wellformed_of_moreMembers hmore hvalue.2
      ⟨wellformed_assemble (.object (List.forall_mem_nil _) .nil (List.forall_mem_nil _))
        (List.forall_mem_cons.mpr ⟨⟨hkey.1, hvalue.1⟩, hmembers.1⟩), hmembers.2⟩

/-- So are the elements of an array. -/
theorem wellformed_of_moreElements {ts rest : List Token} {vs : List Json} :
    MoreElements ts vs rest → (∀ token ∈ ts, token.Sound strtod) →
      (∀ v ∈ vs, Wellformed (Converted strtod) v) ∧ ∀ token ∈ rest, token.Sound strtod
  | .close, hts => ⟨List.forall_mem_nil _, (List.forall_mem_cons.mp hts).2⟩
  | .more hv hmore, hts =>
      have hvalue := wellformed_of_valueTokens hv (List.forall_mem_cons.mp hts).2
      have helements := wellformed_of_moreElements hmore hvalue.2
      ⟨List.forall_mem_cons.mpr ⟨hvalue.1, helements.1⟩, helements.2⟩

/-- So are the members of an object. -/
theorem wellformed_of_moreMembers {ts rest : List Token} {more : List (Bytes × Json)} :
    MoreMembers ts more rest → (∀ token ∈ ts, token.Sound strtod) →
      (∀ m ∈ more, Utf8 m.1 ∧ Wellformed (Converted strtod) m.2) ∧
        ∀ token ∈ rest, token.Sound strtod
  | .close, hts => ⟨List.forall_mem_nil _, (List.forall_mem_cons.mp hts).2⟩
  | .more hv hmore, hts =>
      have hkey := List.forall_mem_cons.mp (List.forall_mem_cons.mp hts).2
      have hvalue := wellformed_of_valueTokens hv (List.forall_mem_cons.mp hkey.2).2
      have hmembers := wellformed_of_moreMembers hmore hvalue.2
      ⟨List.forall_mem_cons.mpr ⟨⟨hkey.1, hvalue.1⟩, hmembers.1⟩, hmembers.2⟩

end

/-- What is parsed has UTF-8 strings and ascending keys. -/
theorem wellformed_of_parse {message : Bytes} {j : Json} (h : parse strtod message = some j) :
    Wellformed (Converted strtod) j := by
  obtain ⟨input, -, hparses⟩ := parse_eq_some.mp h
  obtain ⟨ts, hspelled, hvalue⟩ := parses_tokens_iff.mp hparses
  exact (wellformed_of_valueTokens hvalue (sound_of_spelled hspelled)).1

/-- Well-formed with other leaves. -/
theorem Wellformed.mono {P Q : Json → Prop} (hleaf : ∀ v, P v → Q v) {v : Json}
    (h : Wellformed P v) : Wellformed Q v := by
  induction h with
  | leaf hv => exact .leaf (hleaf _ hv)
  | string hs => exact .string hs
  | array _ ih => exact .array ih
  | object hkeys hsorted _ ih => exact .object hkeys hsorted ih

end Parsed

section Settled

variable {ensure_ascii : Bool}

mutual

/-- Reading a value back does not change how it is dumped. -/
theorem dumpValue_reread :
    (v : Json) → dumpValue ensure_ascii v.reread = dumpValue ensure_ascii v
  | .null => rfl
  | .boolean _ => rfl
  | .numberInteger n => by
      have hbuffer : (List.replicate numberBufferSize (0 : UInt8)).length = numberBufferSize :=
        List.length_replicate
      rw [Json.reread]
      split_ifs with hneg
      · rfl
      · have hge : 0 ≤ n.toInt := Int.not_lt.mp (mt neg_iff_toInt.mpr hneg)
        have hnat := toUInt64_toNat hge
        rw [dumpValue, dumpValue, dumpUnsigned_eq hbuffer, dumpInteger_eq hbuffer, decimal,
          if_neg (Int.not_lt.mpr hge)]
        congr 2
        omega
  | .numberUnsigned _ => rfl
  | .numberFloat _ => rfl
  | .string _ => rfl
  | .array elements => by
      rw [Json.reread, dumpValue, dumpValue, dumpElements_reread elements]
  | .object members => by
      rw [Json.reread, dumpValue, dumpValue, dumpEntries_reread members]

/-- Nor how the elements of an array are. -/
theorem dumpElements_reread :
    (es : List Json) → dumpElements ensure_ascii (rereadElements es) =
      dumpElements ensure_ascii es
  | [] => rfl
  | [last] => dumpValue_reread last
  | element :: next :: rest => by
      have hfirst := dumpValue_reread element
      have hothers := dumpElements_reread (next :: rest)
      rw [rereadElements, dumpElements, dumpElements, hfirst, hothers]
      · simp
      · simp [rereadElements]

/-- Nor how the members of an object are. -/
theorem dumpEntries_reread :
    (ms : List (Bytes × Json)) → dumpEntries ensure_ascii (rereadEntries ms) =
      dumpEntries ensure_ascii ms
  | [] => rfl
  | [(key, v)] => by
      have hvalue := dumpValue_reread v
      rw [rereadEntries, rereadEntries, dumpEntries, dumpEntries, hvalue]
  | (key, v) :: (key', v') :: rest => by
      have hvalue := dumpValue_reread v
      have hothers := dumpEntries_reread ((key', v') :: rest)
      rw [rereadEntries, dumpEntries, dumpEntries, hvalue, hothers]
      · simp
      · simp [rereadEntries]

end

/-! ## Round trips -/

/-- The zero with a sign. -/
def negativeZero : Double := ⟨0x8000000000000000⟩

def half : Double := ⟨0x3FE0000000000000⟩

/-- A reader of numbers that rounds to one half and to this zero, and to infinity
otherwise. -/
def strtodHalf (t : Bytes) : Double :=
  if t.head? = some 45 then
    if NearestTo negativeZero (literalValue t.tail) then negativeZero else ⟨0x7FF0000000000000⟩
  else if NearestTo half (literalValue t) then half
  else ⟨0x7FF0000000000000⟩

/-- It rounds to one half. -/
theorem roundsTo_half : RoundsTo strtodHalf half where
  finite := by decide
  reads := by
    intro t htext hnearest
    have hsign : signText half = [] := by decide
    rw [hsign, List.nil_append, strtodHalf, if_neg htext.head_ne_minus, if_pos hnearest]

/-- It rounds to the zero with a sign. -/
theorem roundsTo_negativeZero : RoundsTo strtodHalf negativeZero where
  finite := by decide
  reads := by
    intro t _ hnearest
    have hsign : signText negativeZero = [45] := by decide
    rw [hsign, List.singleton_append, strtodHalf, List.head?_cons, if_pos rfl, List.tail_cons,
      if_pos hnearest]

/-- An object with numbers of each kind. -/
def numbers : Json :=
  .object [(text "a", .array [.numberFloat half, .numberFloat negativeZero, .numberInteger (-7),
    .numberInteger 7]), (text "b", .string (text "\n"))]

/-- The object can be dumped. -/
theorem wellformed_numbers : Wellformed (Readable strtodHalf) numbers := by
  refine .object (by decide) (by decide) ?_
  refine List.forall_mem_cons.mpr ⟨.array ?_, List.forall_mem_singleton.mpr (.string (by decide))⟩
  exact List.forall_mem_cons.mpr ⟨.leaf (.numberFloat roundsTo_half),
    List.forall_mem_cons.mpr ⟨.leaf (.numberFloat roundsTo_negativeZero),
      List.forall_mem_cons.mpr ⟨.leaf (.numberInteger _),
        List.forall_mem_singleton.mpr (.leaf (.numberInteger _))⟩⟩⟩

/-- **Dumping and parsing.**  A value is dumped, and what is written is parsed as the
same value, up to the kind of its integers. -/
theorem parse_dumpValue {strtod : Bytes → Double} (ensure_ascii : Bool) {v : Json}
    (h : Wellformed (Readable strtod) v) :
    ∃ t, dumpValue ensure_ascii v = .ok t ∧ parse strtod t = some v.reread := by
  obtain ⟨t, ts, hreads⟩ := readsBack_of_wellformed ensure_ascii h
  exact ⟨t, hreads.dumped, hreads.parses⟩

/-- Its text. -/
theorem dumpValue_numbers : dumpValue false numbers =
    .ok (text "\x7b\"a\":[0.5,-0.0,-7,7],\"b\":\"\\n\"\x7d") := by
  decide +kernel

/-- The text is read back, with the unsigned seven for the signed one. -/
theorem parse_dumpValue_numbers :
    parse strtodHalf (text "\x7b\"a\":[0.5,-0.0,-7,7],\"b\":\"\\n\"\x7d") =
      some numbers.reread := by
  obtain ⟨t, hdumped, hparse⟩ := parse_dumpValue false wellformed_numbers
  obtain rfl := Except.ok.inj (hdumped.symm.trans dumpValue_numbers)
  exact hparse

/-- **Parsing and dumping.**  What was parsed can be dumped, and another round
changes nothing any more. -/
theorem dumpValue_parse {strtod : Bytes → Double} {message : Bytes} {j : Json}
    (hfloats : ∀ t, (strtod t).isFinite = true → RoundsTo strtod (strtod t))
    (h : parse strtod message = some j) :
    ∃ t, dumpValue ensure_ascii j = .ok t ∧ parse strtod t = some j.reread ∧
      dumpValue ensure_ascii j.reread = .ok t := by
  have hreadable : ∀ v, Converted strtod v → Readable strtod v := by
    intro v hv
    cases hv with
    | null => exact .null
    | boolean b => exact .boolean b
    | numberInteger n => exact .numberInteger n
    | numberUnsigned n => exact .numberUnsigned n
    | numberFloat hfinite hread =>
        obtain ⟨t, rfl⟩ := hread
        exact .numberFloat (hfloats t hfinite)
  obtain ⟨t, ts, hreads⟩ := readsBack_of_wellformed ensure_ascii
    ((wellformed_of_parse h).mono hreadable)
  exact ⟨t, hreads.dumped, hreads.parses, (dumpValue_reread j).trans hreads.dumped⟩

/-- It rounds to both numbers that it reads. -/
theorem strtodHalf_roundsTo (t : Bytes) (h : (strtodHalf t).isFinite = true) :
    RoundsTo strtodHalf (strtodHalf t) := by
  unfold strtodHalf at h ⊢
  split_ifs at h ⊢
  · exact roundsTo_negativeZero
  · exact absurd h (by decide)
  · exact roundsTo_half
  · exact absurd h (by decide)

/-- What was read back stays as it is. -/
theorem dumpValue_parse_numbers :
    ∃ t, dumpValue false numbers.reread = .ok t ∧
      parse strtodHalf t = some numbers.reread.reread ∧
      dumpValue false numbers.reread.reread = .ok t := by
  obtain ⟨message, ts, hreads⟩ := readsBack_of_wellformed false wellformed_numbers
  exact dumpValue_parse strtodHalf_roundsTo hreads.parses

end Settled

end JsonText
