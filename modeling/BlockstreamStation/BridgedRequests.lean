import BlockstreamStation.BridgeRouting
import BlockstreamStation.ServerReplies

/-!
# Requests through the bridge

A client writes a request with `dump`, a thread of the bridge reads it with one `recv`
and hands it on as a C string, the server parses and handles it, and the reply goes
back.  Dumped texts hold no NUL (`zero_not_mem_dumpValue`), so nothing is cut off on the
way, and `requests_through_bridge` puts the pieces together: for any number of clients and
any interleaving, each client is answered for its own requests, in their order, with
replies that it can parse.
-/

namespace JsonText

open CText CodePoints Doubles

/-! ## Dumped texts without NUL -/

/-- A character that is no control character is encoded without NUL. -/
theorem zero_not_mem_utf8EncodeChar {c : Char} (h : 0x20 ≤ c.toNat) :
    0 ∉ String.utf8EncodeChar c := by
  have hval : c.val.toNat = c.toNat := rfl
  have hne : ∀ n, 0 < n % 256 → (0 : UInt8) ≠ UInt8.ofNat n := by
    intro n hn heq
    have hzero := congrArg UInt8.toNat heq
    rw [UInt8.toNat_ofNat'] at hzero
    exact absurd hzero.symm (by simpa using hn.ne')
  rw [String.utf8EncodeChar]
  simp only [hval]
  split_ifs
  all_goals
    simp only [List.mem_cons, List.not_mem_nil, or_false, not_or]
    repeat' apply And.intro
    all_goals exact hne _ (by omega)

/-- Hexadecimal digits are no NULs. -/
theorem zero_not_mem_hexQuad {quad : Bytes} {n : Nat} (h : HexQuad quad n) : 0 ∉ quad := by
  cases h with
  | digits h1 h2 h3 h4 =>
      have hzero : hexDigit? 0 = none := by decide
      simp only [List.mem_cons, List.not_mem_nil, or_false, not_or]
      refine ⟨?_, ?_, ?_, ?_⟩
      · rintro rfl; rw [hzero] at h1; cases h1
      · rintro rfl; rw [hzero] at h2; cases h2
      · rintro rfl; rw [hzero] at h3; cases h3
      · rintro rfl; rw [hzero] at h4; cases h4

/-- No character of a string literal is written with a NUL. -/
theorem zero_not_mem_character {t : Bytes} {c : Char} (h : Character t c) : 0 ∉ t := by
  have hbackslash : (0 : UInt8) ≠ backslash := by decide
  have hletter : (0 : UInt8) ≠ 117 := by decide
  cases h with
  | plain hlow _ _ => exact zero_not_mem_utf8EncodeChar hlow
  | @escaped letter byte _ hescape _ =>
      have hzero : simpleEscape 0 = none := by decide
      simp only [List.mem_cons, List.not_mem_nil, or_false, not_or]
      refine ⟨hbackslash, ?_⟩
      rintro rfl
      rw [hzero] at hescape
      cases hescape
  | unicode hquad =>
      simp only [List.mem_cons, not_or]
      exact ⟨hbackslash, hletter, zero_not_mem_hexQuad hquad⟩
  | pair hhigh hlow _ _ _ =>
      simp only [List.mem_cons, List.mem_append, not_or]
      exact ⟨hbackslash, hletter, zero_not_mem_hexQuad hhigh, hbackslash, hletter,
        zero_not_mem_hexQuad hlow⟩

/-- So a string literal has none. -/
theorem zero_not_mem_stringBody {t : Bytes} {chars : List Char} (h : StringBody t chars) :
    0 ∉ t := by
  induction h with
  | nil => exact List.not_mem_nil
  | cons hcharacter _ ih =>
      rw [List.mem_append, not_or]
      exact ⟨zero_not_mem_character hcharacter, ih⟩

/-- No token is written with a NUL. -/
theorem zero_not_mem_tokenText {strtod : Bytes → Double} {token : Token} {t : Bytes}
    (h : TokenText strtod token t) : 0 ∉ t := by
  cases h with
  | string hbody =>
      have hquote : (0 : UInt8) ≠ quoteMark := by decide
      simp only [List.mem_cons, List.mem_append, List.not_mem_nil, or_false, not_or]
      exact ⟨hquote, zero_not_mem_stringBody hbody, hquote⟩
  | number hnumber =>
      intro hmem
      have hbyte := numberByte_of_numberText hnumber 0 hmem
      revert hbyte
      unfold NumberByte IsDigit IsExponent
      decide
  | _ => decide

section Dump

variable {strtod : Bytes → Double} {ensure_ascii : Bool}

/-- The elements of an array are dumped without NUL if each of them is. -/
theorem zero_not_mem_dumpElements {elements : List Json}
    (h : ∀ e ∈ elements, ∃ t, dumpValue ensure_ascii e = .ok t ∧ 0 ∉ t) :
    ∃ t, dumpElements ensure_ascii elements = .ok t ∧ 0 ∉ t := by
  induction elements with
  | nil => exact ⟨[], by rw [dumpElements]; rfl, List.not_mem_nil⟩
  | cons e es ih =>
      obtain ⟨t, hdumped, ht⟩ := h e List.mem_cons_self
      obtain ⟨t', hdumped', ht'⟩ := ih fun e he => h e (List.mem_cons_of_mem _ he)
      cases es with
      | nil => exact ⟨t, by rw [dumpElements, hdumped], ht⟩
      | cons e' es =>
          refine ⟨t ++ text "," ++ t', ?_, ?_⟩
          · rw [dumpElements, hdumped, hdumped']
            · rfl
            · simp
          · have hcomma : 0 ∉ text "," := by decide
            simp only [List.mem_append, not_or]
            exact ⟨⟨ht, hcomma⟩, ht'⟩

/-- So are the members of an object, keys and values. -/
theorem zero_not_mem_dumpEntries {members : List (Bytes × Json)}
    (hkeys : ∀ m ∈ members, ∃ t, dumpString ensure_ascii m.1 = .ok t ∧ 0 ∉ t)
    (h : ∀ m ∈ members, ∃ t, dumpValue ensure_ascii m.2 = .ok t ∧ 0 ∉ t) :
    ∃ t, dumpEntries ensure_ascii members = .ok t ∧ 0 ∉ t := by
  induction members with
  | nil => exact ⟨[], by rw [dumpEntries]; rfl, List.not_mem_nil⟩
  | cons m ms ih =>
      obtain ⟨key, v⟩ := m
      obtain ⟨name, hname, hname'⟩ := hkeys _ List.mem_cons_self
      obtain ⟨t, hdumped, ht⟩ := h _ List.mem_cons_self
      obtain ⟨t', hdumped', ht'⟩ := ih (fun m hm => hkeys m (List.mem_cons_of_mem _ hm))
        fun m hm => h m (List.mem_cons_of_mem _ hm)
      have hcolon : 0 ∉ text ":" := by decide
      have hcomma : 0 ∉ text "," := by decide
      cases ms with
      | nil =>
          refine ⟨name ++ text ":" ++ t, ?_, ?_⟩
          · rw [dumpEntries, hname, hdumped]
            rfl
          · simp only [List.mem_append, not_or]
            exact ⟨⟨hname', hcolon⟩, ht⟩
      | cons m' ms =>
          refine ⟨name ++ text ":" ++ t ++ text "," ++ t', ?_, ?_⟩
          · rw [dumpEntries, hname, hdumped, hdumped']
            · rfl
            · simp
          · simp only [List.mem_append, not_or]
            exact ⟨⟨⟨⟨hname', hcolon⟩, ht⟩, hcomma⟩, ht'⟩

/-- A string that is UTF-8 is dumped without NUL, also one that holds a NUL. -/
theorem zero_not_mem_dumpString {s : Bytes} (h : Utf8 s) :
    ∃ t, dumpString ensure_ascii s = .ok t ∧ 0 ∉ t := by
  obtain ⟨t, hdump, htext, -⟩ := tokenText_dumpString strtodHalf ensure_ascii h
  exact ⟨t, hdump, zero_not_mem_tokenText htext⟩

/-- **A dumped value has no NUL in its text.** -/
theorem zero_not_mem_dumpValue (ensure_ascii : Bool) {v : Json}
    (h : Wellformed (Readable strtod) v) :
    ∃ t, dumpValue ensure_ascii v = .ok t ∧ 0 ∉ t := by
  induction h with
  | leaf hleaf =>
      obtain ⟨t, token, hdump, htext, -⟩ := tokenText_of_readable hleaf
      exact ⟨t, hdump, zero_not_mem_tokenText htext⟩
  | string hs =>
      rw [dumpValue]
      exact zero_not_mem_dumpString hs
  | array _ ih =>
      obtain ⟨t, hdump, ht⟩ := zero_not_mem_dumpElements ih
      refine ⟨text "[" ++ t ++ text "]", by rw [dumpValue, hdump]; rfl, ?_⟩
      have hopen : 0 ∉ text "[" := by decide
      have hclose : 0 ∉ text "]" := by decide
      simp only [List.mem_append, not_or]
      exact ⟨⟨hopen, ht⟩, hclose⟩
  | object hkeys _ _ ih =>
      obtain ⟨t, hdump, ht⟩ :=
        zero_not_mem_dumpEntries (fun m hm => zero_not_mem_dumpString (hkeys m hm)) ih
      refine ⟨text "\x7b" ++ t ++ text "\x7d", by rw [dumpValue, hdump]; rfl, ?_⟩
      have hopen : 0 ∉ text "\x7b" := by decide
      have hclose : 0 ∉ text "\x7d" := by decide
      simp only [List.mem_append, not_or]
      exact ⟨⟨hopen, ht⟩, hclose⟩

end Dump

end JsonText

namespace TcpBridge

open CText Doubles JsonText Procedures CommandServer LabelledRuns

/-! ## From the client and back -/

section Requests

variable (strtod : Bytes → Double) (ensure_ascii : Bool)

/-- A client has sent these requests: each `recv` has read the dump of one, and has left
room for the terminator in the buffer. -/
structure SentAll (requests : List Json) (client : Client) : Prop where
  wellformed : ∀ request ∈ requests, Wellformed (Readable strtod) request
  dumped : requests.map (dumpValue ensure_ascii) = client.chunks.map .ok
  fits : ∀ chunk ∈ client.chunks, chunk.length < bufferSize

/-- What the client has got: replies to its own requests in their order, each one what
`HandleCommand` returned for the request, and each one an object with the two members of a
reply; at most the last request is still without one. -/
structure ServedAll (p : Platform) (requests : List Json) (client : Client) : Prop where
  one_outstanding : requests.length ≤ client.written.length + 1
  answers : ∀ (i : Nat) (reply : Bytes), client.written[i]? = some reply →
    ∃ request, requests[i]? = some request ∧
      (∃ a m m', handleCommand p a request m = (.returns reply, m')) ∧
      ∃ result, Utf8 result ∧ parse strtod reply = some (replyObject result)

variable {strtod ensure_ascii}

/-- A dumped request is the C string that the bridge hands on. -/
theorem requestText_dumped {request : Json} {chunk : Bytes}
    (h : Wellformed (Readable strtod) request)
    (hdumped : dumpValue ensure_ascii request = .ok chunk) :
    requestText chunk = chunk := by
  obtain ⟨t, ht, hnul⟩ := zero_not_mem_dumpValue ensure_ascii h
  obtain rfl := Except.ok.inj (ht.symm.trans hdumped)
  exact cstr_eq_self hnul

variable {C : Type} [DecidableEq C] {p : Platform} {s : System C} {c : C}

/-- What is delivered to a client that sends requests answers them. -/
theorem servedAll_of_delivered (h : Delivered (parse strtod) p s c) {requests : List Json}
    (hsent : SentAll strtod ensure_ascii requests (s.clients c)) :
    ServedAll strtod p requests (s.clients c) := by
  have hlength := congrArg List.length hsent.dumped
  rw [List.length_map, List.length_map] at hlength
  refine ⟨hlength ▸ h.one_outstanding, fun i reply hreply => ?_⟩
  -- the call that was answered with this reply, its chunk, and its request
  obtain ⟨hi, hwritten⟩ := List.getElem?_eq_some_iff.mp hreply
  have hresponse := List.prefix_iff_getElem?.mp h.matched i hi
  rw [hwritten, List.getElem?_map, Option.map_eq_some_iff] at hresponse
  obtain ⟨call, hcall, rfl⟩ := hresponse
  have hmessage : ((s.log c).map Handled.message)[i]? = some call.message := by
    rw [List.getElem?_map, hcall]
    rfl
  obtain ⟨hi, hlog⟩ := List.getElem?_eq_some_iff.mp hmessage
  have hchunk := List.prefix_iff_getElem?.mp h.in_order i hi
  rw [hlog, List.getElem?_map, Option.map_eq_some_iff] at hchunk
  obtain ⟨chunk, hchunk, htext⟩ := hchunk
  have hrequest : (requests.map (dumpValue ensure_ascii))[i]? = some (.ok chunk) := by
    rw [hsent.dumped, List.getElem?_map, hchunk]
    rfl
  rw [List.getElem?_map, Option.map_eq_some_iff] at hrequest
  obtain ⟨request, hrequest, hdumped⟩ := hrequest
  have hwellformed := hsent.wellformed request (List.mem_of_getElem? hrequest)
  obtain ⟨t, ts, hreads⟩ := readsBack_of_wellformed ensure_ascii hwellformed
  obtain rfl := Except.ok.inj (hreads.dumped.symm.trans hdumped)
  obtain ⟨a, m, m', hreturns⟩ := h.genuine call (List.mem_of_getElem? hcall)
  rw [← htext, requestText_dumped hwellformed hdumped, respond_of_readsBack hreads] at hreturns
  obtain ⟨result, hdump⟩ := handleCommand_returning p a request m call.response m' hreturns
  exact ⟨request, hrequest, ⟨a, m, m', hreturns⟩, result, parse_dump_reply hdump⟩

end Requests

/-- **Through the bridge and back.**  In every state of every run, whatever the other
connections do and however the system answers the calls, a client that sends one dumped
request at a time has got the replies of `HandleCommand` to its own requests, in their
order, and can parse them. -/
theorem requests_through_bridge {C : Type} [DecidableEq C] {strtod : Bytes → Double}
    {ensure_ascii : Bool} {p : Platform} {machine : Machine}
    {buffers : C → Bytes} {steps : List (Step C)} {s : System C}
    (hexec : exec (step (parse strtod) p) (start machine buffers) steps = some s) {c : C}
    {requests : List Json} (hsent : SentAll strtod ensure_ascii requests (s.clients c)) :
    ServedAll strtod p requests (s.clients c) :=
  servedAll_of_delivered (delivered_of_exec hexec c) hsent

/-! ## Two clients ask for the version -/

/-- What a client has read and written in a run in which both requests are handled. -/
theorem exec_twoClientsRun :
    ∃ s, exec (step (parse strtodHalf) ⟨64, 4096⟩) (start zeroMachine fun _ => [])
        twoClientsRun = some s ∧
      (s.clients true).chunks = [text "\x7b\"command\":\"get_app_version\"\x7d"] ∧
      (s.clients true).written =
        [text "\x7b\"command\":\"ACK\",\"result\":\"1.0.0\"\x7d"] := by
  have hhandle : ∀ (s : System Bool) (e : Envelope Bool), s.server = .received e →
      e.message = text "\x7b\"command\":\"get_app_version\"\x7d" → s.machine = zeroMachine →
      step (parse strtodHalf) ⟨64, 4096⟩ s (.handle willing) = some { s with
        server := .responding e (text "\x7b\"command\":\"ACK\",\"result\":\"1.0.0\"\x7d")
        machine := zeroMachine
        handled := s.handled ++ [⟨e.conn, e.message,
          text "\x7b\"command\":\"ACK\",\"result\":\"1.0.0\"\x7d"⟩] } := by
    intro s e hserver hmessage hmachine
    simp only [step, hserver, hmessage, hmachine, respond_versionRequest]
  unfold twoClientsRun
  dsimp only
  -- up to the first request, its handling, up to the second one, its handling, and the rest
  iterate 5 rw [exec_cons_of_step rfl]
  rw [exec_cons_of_step (hhandle _ _ rfl rfl rfl)]
  iterate 3 rw [exec_cons_of_step rfl]
  rw [exec_cons_of_step (hhandle _ _ rfl rfl rfl)]
  iterate 5 rw [exec_cons_of_step rfl]
  exact ⟨_, rfl, rfl, rfl⟩

/-- The client that is handled first has sent a request and got its reply. -/
theorem requests_through_bridge_version :
    ∃ s, exec (step (parse strtodHalf) ⟨64, 4096⟩) (start zeroMachine fun _ => [])
        twoClientsRun = some s ∧
      SentAll strtodHalf false [versionRequest] (s.clients true) ∧
      (s.clients true).written.length = 1 ∧
      ServedAll strtodHalf ⟨64, 4096⟩ [versionRequest] (s.clients true) := by
  obtain ⟨s, hexec, hchunks, hwritten⟩ := exec_twoClientsRun
  have hsent : SentAll strtodHalf false [versionRequest] (s.clients true) := by
    refine ⟨List.forall_mem_singleton.mpr wellformed_versionRequest, ?_, ?_⟩
    · rw [hchunks, List.map_singleton, List.map_singleton, dumpValue_versionRequest]
    · rw [hchunks]
      exact List.forall_mem_singleton.mpr (by decide)
  exact ⟨s, hexec, hsent, by rw [hwritten]; rfl, requests_through_bridge hexec hsent⟩

end TcpBridge
