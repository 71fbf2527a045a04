import BlockstreamStation.JsonStrings
import BlockstreamStation.Utf8Decoder

/-!
# Escaping strings

`serializer::dump_escaped` of the vendored `nlohmann::json` with the strict error
handler.  It decodes with the table, gathers what it writes in `string_buffer`, and
hands the buffer on when fewer than 13 bytes of it are left.  The buffer is here what
has been written into it, and a write behind its end is a fault of its own.

* `dumpEscapedBuffer_fault` — no string makes it write behind the buffer;
* `dumpEscapedBuffer_ok_iff` — it returns exactly on UTF-8, with every code point
  escaped;
* `dumpEscapedBuffer_eq` — without `ensure_ascii` it agrees with `dumpEscaped`;
* `stringBody_escapeChars` — what it writes is a string literal of the same text.
-/

namespace JsonText

open CText CodePoints

/-! ## The code -/

/-- The ways in which the serializer does not return: the exception, a failing
assertion, and a write outside its buffers. -/
inductive DumpFault where
  | typeError
  | assertion
  | outOfBounds
deriving DecidableEq

/-- The variables of `dump_escaped`; `written` is `string_buffer` up to `bytes`. -/
structure Dumping where
  state : Nat
  codepoint : UInt32
  written : Bytes
  output : Bytes

/-- `string_buffer.size()`. -/
def bufferSize : Nat := 512

/-- A write to `string_buffer` that touches so many bytes behind `bytes` and leaves
the first of them there. -/
def Dumping.write (d : Dumping) (touched : Nat) (added : Bytes) : Except DumpFault Dumping :=
  if d.written.length + touched ≤ bufferSize then .ok { d with written := d.written ++ added }
  else .error .outOfBounds

/-- Hand the buffer on, unless 13 bytes of it are left. -/
def Dumping.flush (d : Dumping) : Dumping :=
  if bufferSize - d.written.length < 13 then
    { d with written := [], output := d.output ++ d.written }
  else d

/-- `"\\u%04x"` of a 16-bit number. -/
def unicodeEscape (n : Nat) : Bytes := text "\\u" ++ padded 4 (numeral 16 (n % 2 ^ 16))

/-- What is written for a code point: how many bytes the write touches, `snprintf`
with its NUL, and the text. -/
def escapeCodepoint (ensure_ascii : Bool) (codepoint : Nat) (byte : UInt8) : Nat × Bytes :=
  if codepoint = 0x08 then (2, text "\\b")
  else if codepoint = 0x09 then (2, text "\\t")
  else if codepoint = 0x0A then (2, text "\\n")
  else if codepoint = 0x0C then (2, text "\\f")
  else if codepoint = 0x0D then (2, text "\\r")
  else if codepoint = 0x22 then (2, text "\\\"")
  else if codepoint = 0x5C then (2, text "\\\\")
  else if codepoint ≤ 0x1F ∨ ensure_ascii ∧ 0x7F ≤ codepoint then
    if codepoint ≤ 0xFFFF then (7, unicodeEscape codepoint)
    else (13, unicodeEscape (0xD7C0 + codepoint >>> 10) ++
      unicodeEscape (0xDC00 + (codepoint &&& 0x3FF)))
  else (1, [byte])

/-- The body of the loop. -/
def dumpByte (ensure_ascii : Bool) (d : Dumping) (byte : UInt8) : Except DumpFault Dumping :=
  let (state, codepoint) := decodeByte d.state d.codepoint byte
  let d := { d with state := state, codepoint := codepoint }
  if state = 0 then
    let (touched, added) := escapeCodepoint ensure_ascii codepoint.toNat byte
    (d.write touched added).map Dumping.flush
  else if state = 1 then .error .typeError
  else if ensure_ascii then .ok d
  else d.write 1 [byte]

/-- `dump_escaped`: what it hands on in all. -/
def dumpEscapedBuffer (ensure_ascii : Bool) (s : Bytes) : Except DumpFault Bytes := do
  let d ← s.foldlM (dumpByte ensure_ascii) ⟨0, 0, [], []⟩
  if d.state = 0 then .ok (d.output ++ d.written) else .error .typeError

section Bounds

variable {ensure_ascii : Bool}

/-! ## The room in the buffer -/

/-- How many bytes of an incomplete code point may already be in the buffer. -/
def Utf8State.pending : Utf8State → Nat
  | .accept | .reject => 0
  | .three | .afterE0 | .afterED | .afterF0 | .afterF4 => 1
  | .two => 2
  | .one => 3

/-- At most three continuation bytes are waited for. -/
theorem pending_le (state : Utf8State) : state.pending ≤ 3 := by
  cases state <;> decide

/-- A byte that is not rejected is in the range. -/
theorem within_ne_reject {low high byte : UInt8} {next : Utf8State}
    (h : within low high byte next ≠ .reject) : within low high byte next = next := by
  unfold within at h ⊢
  split_ifs at h ⊢
  · rfl
  · exact absurd rfl h

/-- The count goes on to the next state. -/
theorem pending_within {low high byte : UInt8} {next : Utf8State} {n : Nat}
    (hn : n < next.pending) (h : within low high byte next ≠ .reject) :
    n < (within low high byte next).pending := by
  rw [within_ne_reject h]
  exact hn

/-- A byte within a code point is one more. -/
theorem pending_decode {state : Utf8State} {byte : UInt8} (haccept : decode state byte ≠ .accept)
    (hreject : decode state byte ≠ .reject) :
    state.pending < (decode state byte).pending := by
  cases state with
  | accept =>
      have hpos : ∀ next : Utf8State, next ≠ .accept → next ≠ .reject → 0 < next.pending := by
        intro next
        cases next <;> decide
      exact hpos _ haccept hreject
  | reject => exact absurd rfl hreject
  | one => exact absurd (within_ne_reject hreject) haccept
  | two => exact pending_within (by decide) hreject
  | three => exact pending_within (by decide) hreject
  | afterE0 => exact pending_within (by decide) hreject
  | afterED => exact pending_within (by decide) hreject
  | afterF0 => exact pending_within (by decide) hreject
  | afterF4 => exact pending_within (by decide) hreject

/-- The state of the loop is one of the automaton, and the buffer has room for what
may still be written before it is looked at. -/
structure Room (ensure_ascii : Bool) (state : Utf8State) (d : Dumping) : Prop where
  automaton : d.state = state.number
  length : d.written.length ≤ 499 + if ensure_ascii then 0 else state.pending

/-- Texts of 16-bit numbers have six bytes. -/
theorem length_unicodeEscape (n : Nat) : (unicodeEscape n).length = 6 := by
  have hpow : n % 2 ^ 16 < 16 ^ 4 := Nat.mod_lt _ (by decide)
  have hlength := (length_numeral_le_iff 16 4 (n % 2 ^ 16) (by decide) (by decide)).mpr hpow
  have htext : (text "\\u").length = 2 := by decide
  rw [unicodeEscape, padded, List.length_append, List.length_leftpad, htext]
  omega

/-- A code point touches 13 bytes at most, and 7 if it is not escaped for being
beyond ASCII; one byte less stays in the buffer when it is more than two. -/
theorem escapeCodepoint_touched (ensure_ascii : Bool) (codepoint : Nat) (byte : UInt8) :
    (escapeCodepoint ensure_ascii codepoint byte).2.length ≤
        (escapeCodepoint ensure_ascii codepoint byte).1 ∧
      (escapeCodepoint ensure_ascii codepoint byte).1 ≤ if ensure_ascii then 13 else 7 := by
  have htext : (text "\\b").length = 2 ∧ (text "\\t").length = 2 ∧ (text "\\n").length = 2 ∧
      (text "\\f").length = 2 ∧ (text "\\r").length = 2 ∧ (text "\\\"").length = 2 ∧
      (text "\\\\").length = 2 := by decide
  unfold escapeCodepoint
  split_ifs <;> (simp [htext, length_unicodeEscape]; try grind)

/-- What one round does, by the state of the automaton that it comes to. -/
theorem dumpByte_eq {state : Utf8State} {d : Dumping} (h : d.state = state.number)
    (byte : UInt8) :
    dumpByte ensure_ascii d byte =
      let codepoint := (decodeByte d.state d.codepoint byte).2
      let next := { d with state := (decode state byte).number, codepoint := codepoint }
      if decode state byte = .accept then
        (next.write (escapeCodepoint ensure_ascii codepoint.toNat byte).1
          (escapeCodepoint ensure_ascii codepoint.toNat byte).2).map Dumping.flush
      else if decode state byte = .reject then .error .typeError
      else if ensure_ascii then .ok next
      else next.write 1 [byte] := by
  have hstate : (decodeByte d.state d.codepoint byte).1 = (decode state byte).number := by
    rw [h, decodeByte_state]
  simp only [dumpByte, hstate, number_eq_zero_iff, number_eq_one_iff]

/-- Behind a flush there is room for an escape. -/
theorem flush_length (d : Dumping) : d.flush.written.length ≤ 499 := by
  unfold Dumping.flush
  split_ifs with h
  · exact Nat.zero_le _
  · unfold bufferSize at h
    omega

/-- A flush leaves the decoder. -/
theorem flush_state (d : Dumping) : d.flush.state = d.state := by
  unfold Dumping.flush
  split_ifs <;> rfl

/-- It loses nothing. -/
theorem flush_output (d : Dumping) :
    d.flush.output ++ d.flush.written = d.output ++ d.written := by
  unfold Dumping.flush
  split_ifs
  · exact List.append_nil _
  · rfl

/-- A write that has room. -/
theorem write_of_le {d : Dumping} {touched : Nat} (h : d.written.length + touched ≤ 512)
    (added : Bytes) : d.write touched added = .ok { d with written := d.written ++ added } :=
  if_pos h

/-- One round keeps the room in the buffer. -/
theorem room_dumpByte {state : Utf8State} {d : Dumping} (h : Room ensure_ascii state d)
    (byte : UInt8) :
    dumpByte ensure_ascii d byte = .error .typeError ∨
      ∃ d', dumpByte ensure_ascii d byte = .ok d' ∧
        Room ensure_ascii (decode state byte) d' := by
  obtain ⟨hstate, hlength⟩ := h
  have hpending := pending_le state
  rw [dumpByte_eq hstate]
  simp only
  split_ifs with haccept hreject hascii
  · have htouched := (escapeCodepoint_touched ensure_ascii
      (decodeByte d.state d.codepoint byte).2.toNat byte).2
    rw [write_of_le (by simp only; grind)]
    refine .inr ⟨_, rfl, ?_, ?_⟩
    · rw [flush_state]
    · exact Nat.le_trans (flush_length _) (Nat.le_add_right _ _)
  · exact .inl rfl
  · exact .inr ⟨_, rfl, rfl, by grind⟩
  · have hmore := pending_decode haccept hreject
    rw [write_of_le (by simp only; grind)]
    refine .inr ⟨_, rfl, rfl, ?_⟩
    simp only [List.length_append, List.length_singleton]
    grind

/-- The empty buffer has room. -/
theorem room_start (ensure_ascii : Bool) : Room ensure_ascii .accept ⟨0, 0, [], []⟩ :=
  ⟨rfl, Nat.zero_le _⟩

/-- The loop keeps the room in the buffer. -/
theorem room_foldlM {state : Utf8State} {d : Dumping} (h : Room ensure_ascii state d)
    (s : Bytes) :
    s.foldlM (dumpByte ensure_ascii) d = .error .typeError ∨
      ∃ d', s.foldlM (dumpByte ensure_ascii) d = .ok d' ∧
        Room ensure_ascii (decodeAll state s) d' := by
  induction s generalizing state d with
  | nil => exact .inr ⟨d, rfl, h⟩
  | cons byte s ih =>
      obtain hfailed | ⟨d', hstep, hroom⟩ := room_dumpByte h byte
      · exact .inl (by rw [List.foldlM_cons, hfailed]; rfl)
      · rw [List.foldlM_cons, hstep]
        exact ih hroom

/-- **The buffer is large enough**, whatever the bytes of the string are: only the
exception keeps it from returning. -/
theorem dumpEscapedBuffer_fault {s : Bytes} {fault : DumpFault}
    (h : dumpEscapedBuffer ensure_ascii s = .error fault) : fault = .typeError := by
  unfold dumpEscapedBuffer at h
  obtain hfailed | ⟨d, hrun, -⟩ := room_foldlM (room_start ensure_ascii) s
  · rw [hfailed] at h
    exact (Except.error.inj h).symm
  · rw [hrun] at h
    change (if d.state = 0 then _ else _) = _ at h
    split_ifs at h
    exact (Except.error.inj h).symm

end Bounds

/-! ## What is written -/

section Text

variable {ensure_ascii : Bool}

/-- How a code point is written. -/
def escapeChar (ensure_ascii : Bool) (c : Char) : Bytes :=
  if c.toNat < 0x80 ∨ ensure_ascii then
    (escapeCodepoint ensure_ascii c.toNat (UInt8.ofNat c.toNat)).2
  else String.utf8EncodeChar c

/-- Beyond ASCII the last byte matters only when it is copied. -/
theorem escapeCodepoint_of_ge {codepoint : Nat} (h : 0x80 ≤ codepoint) (byte byte' : UInt8) :
    (escapeCodepoint true codepoint byte).2 = (escapeCodepoint true codepoint byte').2 ∧
      (escapeCodepoint false codepoint byte).2 = [byte] := by
  constructor
  · grind [escapeCodepoint]
  · grind [escapeCodepoint]

/-- Between two code points: everything up to here is in the output or in the
buffer. -/
structure Settled (d : Dumping) (dumped : Bytes) : Prop where
  automaton : d.state = 0
  length : d.written.length ≤ 499
  text : d.output ++ d.written = dumped

/-- The bytes of a code point that the buffer holds before it is complete. -/
def copied (ensure_ascii : Bool) (front : Bytes) : Bytes := if ensure_ascii then [] else front

/-- Within a code point, of which the bytes of `front` have been read. -/
structure Gathering (ensure_ascii : Bool) (state : Utf8State) (d : Dumping)
    (dumped front : Bytes) : Prop where
  automaton : d.state = state.number
  inside : state ≠ .accept
  nonempty : front ≠ []
  codepoint : d.codepoint.toNat = sequenceValue front
  small : sequenceValue front < 2 ^ (6 * front.length + 2)
  length : d.written.length ≤ 499 + if ensure_ascii then 0 else front.length
  text : d.output ++ d.written = dumped ++ copied ensure_ascii front

/-- A continuation byte appends six bits. -/
theorem sequenceValue_append {front : Bytes} (hfront : front ≠ []) (b : UInt8) :
    sequenceValue (front ++ [b]) = 64 * sequenceValue front + b.toNat % 64 := by
  cases front with
  | nil => exact absurd rfl hfront
  | cons lead tail => simp [sequenceValue]

/-- A lead byte carries less than eight bits. -/
theorem payload_lt (lead : UInt8) : payload lead < 2 ^ 8 := by
  have hlt := lead.toNat_lt
  unfold payload
  split_ifs <;> omega

/-- A byte within a code point is copied, or left for later. -/
theorem dumpByte_inside {state : Utf8State} {d : Dumping} {b : UInt8}
    (hstate : d.state = state.number) (haccept : decode state b ≠ .accept)
    (hreject : decode state b ≠ .reject) (hlength : d.written.length < 512) :
    dumpByte ensure_ascii d b =
      .ok ⟨(decode state b).number, (decodeByte d.state d.codepoint b).2,
        d.written ++ copied ensure_ascii [b], d.output⟩ := by
  rw [dumpByte_eq hstate]
  simp only [if_neg haccept, if_neg hreject]
  cases ensure_ascii with
  | true => simp [copied]
  | false =>
      rw [write_of_le (by simp only; omega)]
      simp [copied]

/-- The first byte of several. -/
theorem gathering_first (ensure_ascii : Bool) {d : Dumping} {dumped : Bytes}
    (h : Settled d dumped) {b : UInt8}
    (haccept : decode .accept b ≠ .accept) (hreject : decode .accept b ≠ .reject) :
    ∃ d', dumpByte ensure_ascii d b = .ok d' ∧
      Gathering ensure_ascii (decode .accept b) d' dumped [b] := by
  have hlength := h.length
  have hstate : d.state = Utf8State.accept.number := h.automaton
  refine ⟨_, dumpByte_inside hstate haccept hreject (by omega), rfl,
    haccept, by simp, ?_, payload_lt b, ?_, ?_⟩
  · rw [h.automaton]
    exact decodeByte_lead d.codepoint hreject
  · cases ensure_ascii <;> simp [copied] <;> omega
  · rw [← List.append_assoc, h.text]

/-- A further byte. -/
theorem gathering_more {state : Utf8State} {d : Dumping} {dumped front : Bytes}
    (h : Gathering ensure_ascii state d dumped front) (hfront : front.length ≤ 2) {b : UInt8}
    (haccept : decode state b ≠ .accept) (hreject : decode state b ≠ .reject) :
    ∃ d', dumpByte ensure_ascii d b = .ok d' ∧
      Gathering ensure_ascii (decode state b) d' dumped (front ++ [b]) := by
  have hlength := h.length
  have hsmall : d.codepoint.toNat < 2 ^ 26 := by
    rw [h.codepoint]
    exact Nat.lt_of_lt_of_le h.small (Nat.pow_le_pow_right (by decide) (by omega))
  have hvalue := sequenceValue_append h.nonempty b
  refine ⟨_, dumpByte_inside h.automaton haccept hreject (by grind), rfl, haccept, by simp,
    ?_, ?_, ?_, ?_⟩
  · rw [h.automaton, decodeByte_tail h.inside hsmall, h.codepoint, hvalue]
  · have hmod := Nat.mod_lt b.toNat (show 0 < 64 by decide)
    have hpow : 2 ^ (6 * (front.length + 1) + 2) = 64 * 2 ^ (6 * front.length + 2) := by ring
    have hsequence := h.small
    rw [hvalue, List.length_append, List.length_singleton, hpow]
    omega
  · cases ensure_ascii <;> simp [copied] at hlength ⊢ <;> omega
  · rw [← List.append_assoc, h.text, List.append_assoc]
    cases ensure_ascii <;> rfl

/-- The byte that completes a code point settles it. -/
theorem dumpByte_last {state : Utf8State} {d : Dumping} {dumped front : Bytes} {b : UInt8}
    {n : Nat} (hstate : d.state = state.number) (hb : decode state b = .accept)
    (hcodepoint : (decodeByte d.state d.codepoint b).2.toNat = n)
    (hlength : d.written.length ≤ 499 + if ensure_ascii then 0 else 3)
    (htext : d.output ++ d.written = dumped ++ copied ensure_ascii front) :
    ∃ d', dumpByte ensure_ascii d b = .ok d' ∧
      Settled d' (dumped ++ (copied ensure_ascii front ++
        (escapeCodepoint ensure_ascii n b).2)) := by
  have htouched := (escapeCodepoint_touched ensure_ascii n b).2
  rw [dumpByte_eq hstate]
  simp only [hb, if_true, hcodepoint]
  rw [write_of_le (by simp only; grind)]
  refine ⟨_, rfl, ?_, flush_length _, ?_⟩
  · rw [flush_state]
    rfl
  · rw [flush_output, ← List.append_assoc, htext, List.append_assoc]

/-- The rest of a code point settles it. -/
theorem foldlM_finishes {state : Utf8State} {bytes : Bytes} (h : Finishes state bytes) :
    ∀ {d : Dumping} {dumped front : Bytes}, Gathering ensure_ascii state d dumped front →
      front.length + bytes.length ≤ 4 →
      ∃ d' last, bytes.foldlM (dumpByte ensure_ascii) d = .ok d' ∧ bytes.getLast? = some last ∧
        Settled d' (dumped ++ (copied ensure_ascii (front ++ bytes.dropLast) ++
          (escapeCodepoint ensure_ascii (sequenceValue (front ++ bytes)) last).2)) := by
  induction h with
  | @last state b hb =>
      intro d dumped front hgathering hcount
      have hlength := hgathering.length
      have hsmall : d.codepoint.toNat < 2 ^ 26 := by
        rw [hgathering.codepoint]
        refine Nat.lt_of_lt_of_le hgathering.small (Nat.pow_le_pow_right (by decide) ?_)
        rw [List.length_singleton] at hcount
        omega
      have hvalue : (decodeByte d.state d.codepoint b).2.toNat = sequenceValue (front ++ [b]) := by
        rw [hgathering.automaton, decodeByte_tail hgathering.inside hsmall,
          hgathering.codepoint, sequenceValue_append hgathering.nonempty]
      obtain ⟨d', hstep, hsettled⟩ := dumpByte_last hgathering.automaton hb hvalue
        (by grind) hgathering.text
      refine ⟨d', b, ?_, rfl, ?_⟩
      · rw [List.foldlM_cons, hstep]
        rfl
      · rw [List.dropLast_singleton, List.append_nil]
        exact hsettled
  | @more state next b rest hb haccept hreject hrest ih =>
      intro d dumped front hgathering hcount
      have hne : rest ≠ [] := by cases hrest <;> simp
      subst hb
      rw [List.length_cons] at hcount
      have hpos := List.length_pos_of_ne_nil hne
      obtain ⟨d', hstep, hgathering'⟩ := gathering_more hgathering (by omega) haccept hreject
      obtain ⟨d'', last, hrun, hlast, hsettled⟩ := ih hgathering' (by
        rw [List.length_append, List.length_singleton]
        omega)
      refine ⟨d'', last, ?_, ?_, ?_⟩
      · rw [List.foldlM_cons, hstep]
        exact hrun
      · rw [List.getLast?_cons, hlast]
        rfl
      · rw [List.dropLast_cons_of_ne_nil hne, List.append_cons front b rest,
          List.append_cons front b rest.dropLast]
        exact hsettled

/-- The bytes before the last one and what is written for the last one. -/
theorem escapeChar_of_ge {c : Char} (h : 0x80 ≤ c.toNat) {front : Bytes} {last : UInt8}
    (hbytes : String.utf8EncodeChar c = front ++ [last]) :
    escapeChar ensure_ascii c =
      copied ensure_ascii front ++ (escapeCodepoint ensure_ascii c.toNat last).2 := by
  obtain ⟨hescaped, hcopied⟩ := escapeCodepoint_of_ge h last (UInt8.ofNat c.toNat)
  cases ensure_ascii with
  | true => simp [escapeChar, copied, hescaped]
  | false => simp [escapeChar, copied, hcopied, hbytes, Nat.not_lt.mpr h]

/-- **One code point.**  It is written as a whole, and the buffer has room again. -/
theorem foldlM_utf8EncodeChar {d : Dumping} {dumped : Bytes} (h : Settled d dumped) (c : Char) :
    ∃ d', (String.utf8EncodeChar c).foldlM (dumpByte ensure_ascii) d = .ok d' ∧
      Settled d' (dumped ++ escapeChar ensure_ascii c) := by
  by_cases hascii : c.toNat < 0x80
  · have hbyte : (UInt8.ofNat c.toNat).toNat = c.toNat := by
      rw [UInt8.toNat_ofNat']
      omega
    have hb : decode .accept (UInt8.ofNat c.toNat) = .accept := by
      rw [decode_accept_eq, hbyte, if_pos hascii]
    have hstate : d.state = Utf8State.accept.number := h.automaton
    have hvalue : (decodeByte 0 d.codepoint (UInt8.ofNat c.toNat)).2.toNat = _ :=
      decodeByte_lead d.codepoint (by simp [hb])
    rw [payload, hbyte, if_pos hascii] at hvalue
    have htext : d.output ++ d.written = dumped ++ copied ensure_ascii [] := by
      simp [h.text, copied]
    obtain ⟨d', hstep, hsettled⟩ := dumpByte_last hstate hb
      (h.automaton ▸ hvalue) (Nat.le_trans h.length (Nat.le_add_right _ _)) htext
    refine ⟨d', ?_, ?_⟩
    · rw [utf8EncodeChar_of_ascii hbyte.symm (by omega), List.foldlM_cons, hstep]
      rfl
    · simpa [escapeChar, hascii, copied] using hsettled
  · have hvalue := sequenceValue_utf8EncodeChar c
    have hfinishes := finishes_of_sequence (sequence_utf8EncodeChar c)
    have hcount : (String.utf8EncodeChar c).length ≤ 4 := by
      rw [String.length_utf8EncodeChar]
      exact c.utf8Size_le_four
    have hescape : ∀ front last, String.utf8EncodeChar c = front ++ [last] →
        escapeChar ensure_ascii c =
          copied ensure_ascii front ++ (escapeCodepoint ensure_ascii c.toNat last).2 :=
      fun _ _ => escapeChar_of_ge (Nat.not_lt.mp hascii)
    have hseveral : ∀ b, String.utf8EncodeChar c ≠ [b] := by
      intro b hb
      rw [utf8EncodeChar_eq] at hb
      split_ifs at hb
      · omega
      all_goals simp at hb
    generalize String.utf8EncodeChar c = bytes at *
    cases hfinishes with
    | @last _ b _ => exact absurd rfl (hseveral b)
    | @more _ _ b rest hb haccept hreject hrest =>
        subst hb
        rw [List.length_cons] at hcount
        obtain ⟨d', hstep, hgathering⟩ := gathering_first ensure_ascii h haccept hreject
        obtain ⟨d'', last, hrun, hlast, hsettled⟩ := foldlM_finishes hrest hgathering
          (by rw [List.length_singleton]; omega)
        refine ⟨d'', ?_, ?_⟩
        · rw [List.foldlM_cons, hstep]
          exact hrun
        · have hsplit : b :: rest = b :: rest.dropLast ++ [last] := by
            rw [List.cons_append, List.dropLast_append_getLast?]
            exact hlast
          rw [hescape _ _ hsplit, ← hvalue]
          exact hsettled

/-- Every code point is written in turn. -/
theorem foldlM_encode (ensure_ascii : Bool) (chars : List Char) :
    ∀ {d : Dumping} {dumped : Bytes}, Settled d dumped →
      ∃ d', (encode chars).foldlM (dumpByte ensure_ascii) d = .ok d' ∧
        Settled d' (dumped ++ chars.flatMap (escapeChar ensure_ascii)) := by
  induction chars with
  | nil =>
      intro d dumped h
      exact ⟨d, rfl, by simpa using h⟩
  | cons c chars ih =>
      intro d dumped h
      obtain ⟨d', hchar, hsettled⟩ := foldlM_utf8EncodeChar h c
      obtain ⟨d'', hrun, hsettled'⟩ := ih hsettled
      refine ⟨d'', ?_, ?_⟩
      · rw [encode_cons, List.foldlM_append, hchar]
        exact hrun
      · rw [List.flatMap_cons, ← List.append_assoc]
        exact hsettled'

/-- Between two code points, at the start. -/
theorem settled_start : Settled ⟨0, 0, [], []⟩ [] := ⟨rfl, Nat.zero_le _, rfl⟩

/-- A text is written. -/
theorem dumpEscapedBuffer_encode (chars : List Char) :
    dumpEscapedBuffer ensure_ascii (encode chars) =
      .ok (chars.flatMap (escapeChar ensure_ascii)) := by
  obtain ⟨d, hrun, hsettled⟩ := foldlM_encode ensure_ascii chars settled_start
  rw [dumpEscapedBuffer, hrun]
  change (if d.state = 0 then _ else _) = _
  rw [if_pos hsettled.automaton, hsettled.text, List.nil_append]

/-- **`dump_escaped` returns exactly on UTF-8**, with every code point escaped. -/
theorem dumpEscapedBuffer_ok_iff {s out : Bytes} :
    dumpEscapedBuffer ensure_ascii s = .ok out ↔
      ∃ chars, s = encode chars ∧ out = chars.flatMap (escapeChar ensure_ascii) := by
  constructor
  · intro h
    have hutf8 : Utf8 s := by
      obtain hfailed | ⟨d, hrun, hroom⟩ := room_foldlM (room_start ensure_ascii) s
      · rw [dumpEscapedBuffer, hfailed] at h
        cases h
      · rw [dumpEscapedBuffer, hrun] at h
        change (if d.state = 0 then _ else _) = _ at h
        split_ifs at h with hstate
        exact number_eq_zero_iff.mp (hroom.automaton ▸ hstate)
    obtain ⟨chars, rfl⟩ := utf8_iff_encode.mp hutf8
    rw [dumpEscapedBuffer_encode] at h
    exact ⟨chars, rfl, (Except.ok.inj h).symm⟩
  · intro hexists
    obtain ⟨chars, rfl, rfl⟩ := hexists
    exact dumpEscapedBuffer_encode chars

end Text

/-! ## The plain loop -/

/-- Where the decoder accepts, each byte is escaped by itself. -/
theorem dumpEscaped_of_decodeAll (bytes : Bytes) :
    ∀ state, decodeAll state bytes = .accept →
      dumpEscaped state bytes = some (bytes.flatMap escape) := by
  induction bytes with
  | nil =>
      intro state h
      exact if_pos h
  | cons b rest ih =>
      intro state h
      have hb : decode state b ≠ .reject := by
        intro hreject
        rw [decodeAll_cons, hreject, decodeAll_reject] at h
        cases h
      rw [dumpEscaped, if_neg hb, ih _ h]
      rfl

/-- Without `ensure_ascii` a character is escaped byte by byte. -/
theorem escapeChar_eq (c : Char) :
    escapeChar false c = (String.utf8EncodeChar c).flatMap escape := by
  by_cases hascii : c.toNat < 0x80
  · have hall : ∀ n < 0x80,
        (escapeCodepoint false n (UInt8.ofNat n)).2 = escape (UInt8.ofNat n) := by decide +kernel
    rw [escapeChar, if_pos (.inl hascii), hall _ hascii, utf8EncodeChar_eq, if_pos (by omega)]
    simp
  · have hge : ∀ b ∈ String.utf8EncodeChar c, escape b = [b] := by
      intro b hb
      refine escape_of_ge (UInt8.le_iff_toNat_le.mpr ?_)
      rw [utf8EncodeChar_eq, if_neg (by omega)] at hb
      split_ifs at hb <;> simp only [List.mem_cons, List.not_mem_nil, or_false] at hb <;>
        rcases hb with rfl | rfl | rfl | rfl <;> simp <;> omega
    rw [escapeChar, if_neg (by simpa using hascii), List.flatMap_congr hge,
      List.flatMap_singleton']

/-- **The buffer and the table change nothing.**  Without `ensure_ascii` the code
agrees with the loop over the automaton. -/
theorem dumpEscapedBuffer_eq (s : Bytes) :
    (dumpEscapedBuffer false s).toOption = dumpEscaped .accept s := by
  by_cases hutf8 : Utf8 s
  · obtain ⟨chars, rfl⟩ := utf8_iff_encode.mp hutf8
    rw [dumpEscapedBuffer_encode, dumpEscaped_of_decodeAll _ _ hutf8, encode,
      List.flatMap_assoc, List.flatMap_congr fun c _ => escapeChar_eq c]
    rfl
  · cases hbuffer : dumpEscapedBuffer false s with
    | ok out =>
        obtain ⟨chars, rfl, -⟩ := dumpEscapedBuffer_ok_iff.mp hbuffer
        exact absurd (utf8_encode chars) hutf8
    | error fault =>
        have hnone : ¬ (dumpEscaped .accept s).isSome := mt dumpEscaped_accept_isSome.mp hutf8
        rw [Option.not_isSome_iff_eq_none] at hnone
        exact hnone.symm

/-! ## What is written is a string literal -/

/-- Zeros in front do not change a value. -/
theorem numeralValue_padded (base width : Nat) (digits : Bytes) :
    numeralValue base (padded width digits) = numeralValue base digits := by
  have hzeros : ∀ n : Nat, (List.replicate n (digit 0)).foldl
      (fun n b => base * n + digitOf b) 0 = 0 := by
    intro n
    induction n with
    | zero => rfl
    | succ n ih =>
        rw [List.replicate_succ, List.foldl_cons, digitOf_digit 0 (by decide)]
        exact ih
  rw [numeralValue, padded, List.leftpad, List.foldl_append, hzeros, numeralValue]

/-- `%04x` writes four digits that are read as the number. -/
theorem hexQuad_padded {n : Nat} (h : n < 2 ^ 16) : HexQuad (padded 4 (numeral 16 n)) n := by
  have hlength : (padded 4 (numeral 16 n)).length = 4 := by
    have hle := (length_numeral_le_iff 16 4 n (by decide) (by decide)).mpr h
    rw [padded, List.length_leftpad]
    omega
  have halphabet : ∀ b ∈ padded 4 (numeral 16 n), ∃ d < 16, b = digit d := by
    intro b hb
    obtain hzero | hdigit := List.mem_append.mp hb
    · exact ⟨0, by decide, (List.mem_replicate.mp hzero).2⟩
    · exact numeral_alphabet (by decide) n b hdigit
  have hvalue := (numeralValue_padded 16 4 (numeral 16 n)).trans
    (numeralValue_numeral (by decide) (by decide) n)
  have hread : ∀ d < 16, hexDigit? (digit d) = some d := by decide
  generalize padded 4 (numeral 16 n) = quad at *
  obtain ⟨c1, c2, c3, c4, rfl⟩ : ∃ c1 c2 c3 c4, quad = [c1, c2, c3, c4] := by
    match quad, hlength with
    | [c1, c2, c3, c4], _ => exact ⟨c1, c2, c3, c4, rfl⟩
  obtain ⟨d1, h1, rfl⟩ := halphabet c1 (by simp)
  obtain ⟨d2, h2, rfl⟩ := halphabet c2 (by simp)
  obtain ⟨d3, h3, rfl⟩ := halphabet c3 (by simp)
  obtain ⟨d4, h4, rfl⟩ := halphabet c4 (by simp)
  simp only [numeralValue, List.foldl_cons, List.foldl_nil, digitOf_digit d1 (by omega),
    digitOf_digit d2 (by omega), digitOf_digit d3 (by omega), digitOf_digit d4 (by omega)]
    at hvalue
  have hsum : n = 4096 * d1 + 256 * d2 + 16 * d3 + d4 := by omega
  rw [hsum]
  exact .digits (hread d1 h1) (hread d2 h2) (hread d3 h3) (hread d4 h4)

/-- A `u` escape with four hexadecimal digits. -/
theorem hexQuad_unicodeEscape {n : Nat} (h : n < 2 ^ 16) :
    ∃ quad, unicodeEscape n = backslash :: 117 :: quad ∧ HexQuad quad n := by
  refine ⟨padded 4 (numeral 16 n), ?_, hexQuad_padded h⟩
  rw [unicodeEscape, Nat.mod_eq_of_lt h]
  rfl

/-- The four ways in which a code point is written. -/
inductive Escaped (ensure_ascii : Bool) (codepoint : Nat) (byte : UInt8) : Bytes → Prop
  | simple {letter value : UInt8} : simpleEscape letter = some value → codepoint = value.toNat →
      Escaped ensure_ascii codepoint byte [backslash, letter]
  | unicode : codepoint ≤ 0xFFFF → Escaped ensure_ascii codepoint byte (unicodeEscape codepoint)
  | pair : 0xFFFF < codepoint → Escaped ensure_ascii codepoint byte
      (unicodeEscape (0xD7C0 + codepoint >>> 10) ++ unicodeEscape (0xDC00 + (codepoint &&& 0x3FF)))
  | copy : 0x20 ≤ codepoint → codepoint ≠ 0x22 → codepoint ≠ 0x5C →
      (ensure_ascii = true → codepoint < 0x7F) → Escaped ensure_ascii codepoint byte [byte]

/-- Each case of the `switch` is one of the forms. -/
theorem escaped_escapeCodepoint (ensure_ascii : Bool) (codepoint : Nat) (byte : UInt8) :
    Escaped ensure_ascii codepoint byte (escapeCodepoint ensure_ascii codepoint byte).2 := by
  unfold escapeCodepoint
  split_ifs with h1 h2 h3 h4 h5 h6 h7 h8 h9
  · exact .simple (show simpleEscape 98 = some 8 from rfl) h1
  · exact .simple (show simpleEscape 116 = some 9 from rfl) h2
  · exact .simple (show simpleEscape 110 = some 10 from rfl) h3
  · exact .simple (show simpleEscape 102 = some 12 from rfl) h4
  · exact .simple (show simpleEscape 114 = some 13 from rfl) h5
  · exact .simple (show simpleEscape 34 = some 34 from rfl) h6
  · exact .simple (show simpleEscape 92 = some 92 from rfl) h7
  · exact .unicode h9
  · exact .pair (Nat.not_le.mp h9)
  · obtain ⟨hcontrol, hascii⟩ := not_or.mp h8
    refine .copy (by omega) h6 h7 fun hensure => ?_
    by_contra hlt
    exact hascii ⟨hensure, Nat.not_lt.mp hlt⟩

/-- A character that needs no escape. -/
theorem character_plain {c : Char} (hcontrol : 0x20 ≤ c.toNat) (hquote : c.toNat ≠ 0x22)
    (hbackslash : c.toNat ≠ 0x5C) : Character (String.utf8EncodeChar c) c := by
  refine .plain hcontrol ?_ ?_
  · intro heq
    exact hquote (congrArg Char.toNat heq)
  · intro heq
    exact hbackslash (congrArg Char.toNat heq)

/-- Every code point is written as one character of a string literal. -/
theorem character_escapeChar (ensure_ascii : Bool) (c : Char) :
    Character (escapeChar ensure_ascii c) c := by
  have hvalid := toNat_valid c
  unfold escapeChar
  split_ifs with hwritten
  · generalize hbyte : UInt8.ofNat c.toNat = byte
    have hescaped := escaped_escapeCodepoint ensure_ascii c.toNat byte
    generalize (escapeCodepoint ensure_ascii c.toNat byte).2 = added at hescaped
    cases hescaped with
    | simple hletter hvalue => exact .escaped hletter hvalue
    | unicode hle =>
        obtain ⟨quad, htext, hquad⟩ := hexQuad_unicodeEscape (n := c.toNat) (by omega)
        rw [htext]
        exact .unicode hquad
    | pair hlt =>
        have hmask : c.toNat &&& 0x3FF = c.toNat % 0x400 := Nat.and_two_pow_sub_one_eq_mod _ 10
        have hshift : c.toNat >>> 10 = c.toNat / 0x400 := Nat.shiftRight_eq_div_pow _ 10
        rw [hmask, hshift]
        obtain ⟨high, hhightext, hhigh⟩ := hexQuad_unicodeEscape (n := 0xD7C0 + c.toNat / 0x400)
          (by omega)
        obtain ⟨low, hlowtext, hlow⟩ := hexQuad_unicodeEscape (n := 0xDC00 + c.toNat % 0x400)
          (by omega)
        rw [hhightext, hlowtext]
        exact .pair hhigh hlow (by omega) (by omega) (by omega)
    | copy hcontrol hquote hbackslash hascii =>
        have hsmall : c.toNat < 0x80 := by grind
        have hone : String.utf8EncodeChar c = [byte] := by
          rw [utf8EncodeChar_eq, if_pos (by omega), hbyte]
        rw [← hone]
        exact character_plain hcontrol hquote hbackslash
  · obtain ⟨hge, -⟩ := not_or.mp hwritten
    exact character_plain (by omega) (by omega) (by omega)

/-- What `dump_escaped` writes is a string literal of the same text. -/
theorem stringBody_escapeChars (ensure_ascii : Bool) (chars : List Char) :
    StringBody (chars.flatMap (escapeChar ensure_ascii)) chars := by
  induction chars with
  | nil => exact .nil
  | cons c chars ih => exact .cons (character_escapeChar ensure_ascii c) ih

/-- With `ensure_ascii` everything that is written is ASCII. -/
theorem ascii_escapeChar (c : Char) : Ascii (escapeChar true c) := by
  have hunicode : ∀ n, Ascii (unicodeEscape n) := fun n =>
    ascii_append (by decide) (ascii_padded (ascii_numeral (by decide) (by decide)))
  rw [escapeChar, if_pos (.inr rfl)]
  have hescaped := escaped_escapeCodepoint true c.toNat (UInt8.ofNat c.toNat)
  generalize (escapeCodepoint true c.toNat (UInt8.ofNat c.toNat)).2 = added at hescaped
  cases hescaped with
  | @simple letter value hletter _ =>
      have hall : ∀ letter : UInt8, simpleEscape letter ≠ none → letter < 0x80 :=
        forall_byte (by decide +kernel)
      exact List.forall_mem_cons.mpr ⟨by decide, List.forall_mem_singleton.mpr
        (hall letter (by simp [hletter]))⟩
  | unicode _ => exact hunicode _
  | pair _ => exact ascii_append (hunicode _) (hunicode _)
  | copy _ _ _ hascii =>
      have hlt := hascii rfl
      refine List.forall_mem_singleton.mpr (UInt8.lt_iff_toNat_lt.mpr ?_)
      rw [UInt8.toNat_ofNat']
      exact Nat.lt_of_le_of_lt (Nat.mod_le _ _) (Nat.lt_trans hlt (by decide))

/-- What is not UTF-8 is refused. -/
theorem dumpEscapedBuffer_of_not_utf8 {ensure_ascii : Bool} {s : Bytes} (h : ¬ Utf8 s) :
    dumpEscapedBuffer ensure_ascii s = .error .typeError := by
  cases hbuffer : dumpEscapedBuffer ensure_ascii s with
  | ok out =>
      obtain ⟨chars, rfl, -⟩ := dumpEscapedBuffer_ok_iff.mp hbuffer
      exact absurd (utf8_encode chars) h
  | error fault => rw [dumpEscapedBuffer_fault hbuffer]

/-- **Strings are written and read back.**  Without leaving its buffer, `dump_escaped`
writes what `scan_string` reads as the same bytes, or throws because they are not
UTF-8. -/
theorem dumpEscapedBuffer_outcome (ensure_ascii : Bool) (s : Bytes) :
    Utf8 s ∧ (∃ out, dumpEscapedBuffer ensure_ascii s = .ok out ∧
        (ensure_ascii = true → Ascii out) ∧
        ∀ rest, scanString [] (out ++ quoteMark :: rest) = some (s, rest)) ∨
      ¬ Utf8 s ∧ dumpEscapedBuffer ensure_ascii s = .error .typeError := by
  by_cases hutf8 : Utf8 s
  · obtain ⟨chars, rfl⟩ := utf8_iff_encode.mp hutf8
    refine .inl ⟨hutf8, _, dumpEscapedBuffer_encode chars, ?_, fun rest => ?_⟩
    · intro hensure b hb
      subst hensure
      obtain ⟨c, -, hc⟩ := List.mem_flatMap.mp hb
      exact ascii_escapeChar c b hc
    · rw [scanString_of_stringBody (stringBody_escapeChars ensure_ascii chars), List.nil_append]
  · exact .inr ⟨hutf8, dumpEscapedBuffer_of_not_utf8 hutf8⟩

end JsonText
