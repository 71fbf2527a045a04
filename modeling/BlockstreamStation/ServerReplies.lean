import BlockstreamStation.JsonRoundTrip
import BlockstreamStation.UsageReplies

/-!
# The server with its parser

The command server with `nlohmann::json::parse` in the place of the parser that the
other modules leave open.  Every reply is written by `WrapReply`, and a client that
has the same parser reads it as the object it was written for.

* `parsesReplies_parse` — the parser undoes `dump` on replies;
* `replyText_of_run` — every reply of a run was written by `WrapReply`;
* `replies_parse` — so every reply of a run is parsed.
-/

namespace CommandServer

open CText Doubles JsonText Procedures Proc

section Replies

variable {strtod : Bytes → Double}

/-- The object that `WrapReply` writes. -/
def replyObject (result : Bytes) : Json :=
  stringObject [(text "command", text "ACK"), (text "result", result)]

/-- The object of a reply can be dumped if its result is UTF-8. -/
theorem wellformed_replyObject {result : Bytes} (h : Utf8 result) (leaf : Json → Prop) :
    Wellformed leaf (replyObject result) := by
  refine .object ?_ ?_ ?_
  · simp only [List.map_cons, List.map_nil, List.forall_mem_cons]
    exact ⟨by decide, by decide, List.forall_mem_nil _⟩
  · rw [List.pairwise_map]
    have hkeys : text "command" < text "result" := by decide
    exact List.pairwise_pair.mpr hkeys
  · simp only [List.map_cons, List.map_nil, List.forall_mem_cons]
    exact ⟨.string (by decide), .string h, List.forall_mem_nil _⟩

/-- A text that `dump` writes for a reply is parsed as the reply. -/
theorem parse_dump_reply {result reply : Bytes}
    (h : dump [(text "command", text "ACK"), (text "result", result)] = some reply) :
    Utf8 result ∧ parse strtod reply = some (replyObject result) := by
  have hutf8 : Utf8 result := by
    have hall := (dump_isSome _).mp (Option.isSome_iff_exists.mpr ⟨reply, h⟩)
    exact (hall (text "result", result) (by simp)).2
  obtain ⟨t, ts, hreads⟩ := readsBack_of_wellformed false
    (wellformed_replyObject hutf8 (Readable strtod))
  have hdump := dumpValue_strings [(text "command", text "ACK"), (text "result", result)]
  have hdumped := hreads.dumped
  rw [replyObject] at hdumped
  rw [hdumped, h] at hdump
  obtain rfl := Option.some.inj hdump
  exact ⟨hutf8, hreads.parses⟩

/-- The parser is one that the replies to the usage commands rely on. -/
theorem parsesReplies_parse : ParsesReplies (parse strtod) := by
  intro result reply h
  exact (parse_dump_reply h).2

/-- **Usage arrives in two envelopes.**  A usage command is answered exactly if its pipe
opens and what is gathered from it is UTF-8.  The client parses the reply, and has to
parse its result again to come to what was gathered. -/
theorem usage_reply_parses (strtod : Bytes → Double) (p : Platform) (a : Answers) (j : Json)
    (m : Machine) (c : UsageCommand) (hcommand : command? j = some c.name) :
    (Proc.Completes (handleCommand p a j) m ↔ ShellAnswers a) ∧
      ∀ output reply m', a.shell = some output →
        handleCommand p a j m = (.returns reply, m') →
        ∃ inner, parse strtod reply = some (replyObject inner) ∧
          parse strtod inner = some (replyObject (dropNewline (gather output))) := by
  constructor
  · rw [← @usage_completes a c.shellCommand m]
    unfold Proc.Completes
    rw [handleCommand_usage hcommand]
  · intro output reply m' hshell hreturns
    obtain ⟨printed, inner, hprinted, hinner, houter⟩ := usage_returns hcommand hreturns
    obtain rfl := Option.some.inj (hprinted.symm.trans hshell)
    exact ⟨inner, parsesReplies_parse _ _ houter, parsesReplies_parse _ _ hinner⟩

/-- The output may hold NULs: of this line the gathered text has the front. -/
theorem usage_reply_parses_memory :
    ∃ inner reply m',
      handleCommand ⟨64, 4096⟩ { willing with shell := some (text "Mem: 7\x00\n") }
        (.object [(text "command", .string (text "read_memory_usage"))]) zeroMachine =
          (.returns reply, m') ∧
      parse strtodHalf reply = some (replyObject inner) ∧
      parse strtodHalf inner = some (replyObject (text "Mem: 7")) := by
  obtain ⟨hanswered, hparses⟩ := usage_reply_parses strtodHalf ⟨64, 4096⟩
    { willing with shell := some (text "Mem: 7\x00\n") }
    (.object [(text "command", .string (text "read_memory_usage"))]) zeroMachine .memory (by decide)
  obtain ⟨reply, m', hreturns⟩ := hanswered.mpr ⟨_, rfl, by decide⟩
  obtain ⟨inner, hreply, hinner⟩ := hparses _ reply m' rfl hreturns
  exact ⟨inner, reply, m', hreturns, hreply, hinner⟩

/-- A text that was written by `WrapReply`. -/
def ReplyText (reply : Bytes) : Prop :=
  ∃ result, dump [(text "command", text "ACK"), (text "result", result)] = some reply

/-- `WrapReply` returns what it wrote. -/
theorem wrapReply_returning (result : Bytes) : Returning ReplyText (wrapReply result) := by
  intro m reply m' h
  exact ⟨result, (((wrapReply_yields result) m reply m').mp h).1⟩

/-- On every way out of `ReadI2CRegister` that returns, the text is from `WrapReply`. -/
theorem readI2CRegister_returning (a : Answers) (bus address reg : Int) :
    Returning ReplyText (readI2CRegister a bus address reg) := by
  refine returning_bind fun _ => returning_bind fun _ => returning_ite ?_ (wrapReply_returning _)
  refine returning_bind fun _ => returning_ite ?_ (returning_bind fun _ => wrapReply_returning _)
  exact returning_bind fun _ => returning_bind fun _ => returning_bind fun _ =>
    wrapReply_returning _

/-- So it is in the branch of `read_i2c_register`, also for missing parameters. -/
theorem handleReadI2CRegister_returning (a : Answers) (j : Json) :
    Returning ReplyText (handleReadI2CRegister a j) :=
  returning_bind fun _ => returning_bind fun _ => returning_bind fun _ =>
    returning_ite (wrapReply_returning _) (readI2CRegister_returning _ _ _ _)

/-- And in the branch of `write_i2c_register`. -/
theorem handleWriteI2CRegister_returning (a : Answers) (j : Json) :
    Returning ReplyText (handleWriteI2CRegister a j) :=
  returning_bind fun _ => returning_bind fun _ => returning_bind fun _ => returning_bind fun _ =>
    returning_ite (wrapReply_returning _) (returning_bind fun _ => wrapReply_returning _)

/-- And in the branch of `read_memory_address`, where the error of the mapping is caught
and wrapped. -/
theorem handleReadMemoryAddress_returning (p : Platform) (a : Answers) (j : Json) :
    Returning ReplyText (handleReadMemoryAddress p a j) := by
  refine returning_bind fun address_str => returning_ite (wrapReply_returning _)
    (returning_bind fun converted => ?_)
  cases converted with
  | none => exact wrapReply_returning _
  | some address =>
      refine returning_catching (returning_bind fun _ => returning_bind fun _ =>
        wrapReply_returning _) ?_
      intro e q hq
      cases e with
      | runtimeError what =>
          obtain rfl := Option.some.inj hq
          exact wrapReply_returning _
      | _ => cases hq

/-- `HandleCommand` returns what `WrapReply` wrote. -/
theorem handleCommand_returning (p : Platform) (a : Answers) (j : Json) :
    Returning ReplyText (handleCommand p a j) :=
  returning_bind fun _ => returning_ite (wrapReply_returning _)
    (returning_ite (handleReadI2CRegister_returning a j)
    (returning_ite (handleWriteI2CRegister_returning a j)
    (returning_ite (returning_bind fun _ => wrapReply_returning _)
    (returning_ite (returning_bind fun _ => wrapReply_returning _)
    (returning_ite (handleReadMemoryAddress_returning p a j) (wrapReply_returning _))))))

/-- What the server has sent was written by `WrapReply`. -/
def SentReplies (s : Server) : Prop := ∀ reply, Event.sent reply ∈ s.events → ReplyText reply

/-- One round of the server sends nothing that `WrapReply` did not write. -/
theorem sentReplies_serve {parse : Bytes → Option Json} {p : Platform} {s : Server}
    (h : SentReplies s) (arrival : Arrival) : SentReplies (serve parse p s arrival) := by
  cases arrival with
  | failure => exact h
  | message bytes a =>
      have hreturning : Returning ReplyText (respond parse p a bytes) :=
        returning_bind fun j => handleCommand_returning p a j
      have hreceived : ∀ reply, Event.sent reply ∈ s.events ++ [.received bytes] →
          ReplyText reply := by
        intro reply hreply
        obtain hold | hnew := List.mem_append.mp hreply
        · exact h reply hold
        · cases List.mem_singleton.mp hnew
      unfold serve
      rcases hresponse : respond parse p a bytes s.machine with ⟨response | _ | _ | _, m⟩
      case returns =>
        intro reply hreply
        simp only [hresponse] at hreply
        rw [List.append_cons] at hreply
        obtain hold | hnew := List.mem_append.mp hreply
        · exact hreceived reply hold
        · obtain heq := Event.sent.inj (List.mem_singleton.mp hnew)
          exact heq ▸ hreturning s.machine response m hresponse
      all_goals
        simp only [hresponse]
        exact hreceived

/-- So does a run, by induction on what arrives. -/
theorem replyText_of_run {parse : Bytes → Option Json} {p : Platform} (arrivals : List Arrival) :
    ∀ s : Server, SentReplies s → SentReplies (run parse p s arrivals) := by
  induction arrivals with
  | nil =>
      intro s h
      exact h
  | cons arrival rest ih =>
      intro s h
      rw [run]
      split
      · exact ih _ (sentReplies_serve h arrival)
      · exact h

/-- **Every reply is JSON.**  Whatever arrives and however the system answers the
calls, a client with the library's parser reads each reply of a run as an object with
the two members of a reply, and its result is UTF-8. -/
theorem replies_parse (p : Platform) (machine : Machine) (arrivals : List Arrival)
    (reply : Bytes) (h : .sent reply ∈ (run (parse strtod) p (start machine) arrivals).events) :
    ∃ result, Utf8 result ∧ parse strtod reply = some (replyObject result) := by
  obtain ⟨result, hdump⟩ := replyText_of_run arrivals (start machine)
    (by intro reply hreply; cases hreply) reply h
  exact ⟨result, parse_dump_reply hdump⟩

/-- The request for the version, and its text. -/
def versionRequest : Json := .object [(text "command", .string (text "get_app_version"))]

/-- It can be dumped. -/
theorem wellformed_versionRequest :
    Wellformed (Readable strtodHalf) versionRequest :=
  .object (by decide) (by decide) (List.forall_mem_singleton.mpr (.string (by decide)))

/-- Its text. -/
theorem dumpValue_versionRequest : dumpValue false versionRequest =
    .ok (text "\x7b\"command\":\"get_app_version\"\x7d") := by
  decide +kernel

/-- The text is read as the request. -/
theorem parse_versionRequest :
    parse strtodHalf (text "\x7b\"command\":\"get_app_version\"\x7d") =
      some versionRequest := by
  obtain ⟨t, ts, hreads⟩ := readsBack_of_wellformed false wellformed_versionRequest
  obtain rfl := Except.ok.inj (hreads.dumped.symm.trans dumpValue_versionRequest)
  exact hreads.parses

/-- The server answers it. -/
theorem respond_versionRequest :
    respond (parse strtodHalf) ⟨64, 4096⟩ willing
        (text "\x7b\"command\":\"get_app_version\"\x7d") zeroMachine =
      (.returns (text "\x7b\"command\":\"ACK\",\"result\":\"1.0.0\"\x7d"), zeroMachine) := by
  rw [respond, parseMessage, parse_versionRequest]
  rfl

/-- The reply to the version request is read. -/
theorem replies_parse_version :
    ∃ result, Utf8 result ∧
      parse strtodHalf (text "\x7b\"command\":\"ACK\",\"result\":\"1.0.0\"\x7d") =
        some (replyObject result) := by
  refine replies_parse ⟨64, 4096⟩ zeroMachine
    [.message (text "\x7b\"command\":\"get_app_version\"\x7d") willing] _ ?_
  rw [run_cons rfl, serve, start, respond_versionRequest]
  exact List.mem_cons_of_mem _ List.mem_cons_self

end Replies

/-! ## Requests -/

section Requests

variable {σ : Type}

/-- Reading a value back keeps the keys. -/
theorem lookup_rereadEntries (key : Bytes) (members : List (Bytes × Json)) :
    (rereadEntries members).lookup key = (members.lookup key).map Json.reread := by
  induction members with
  | nil => rfl
  | cons m rest ih =>
      obtain ⟨k, v⟩ := m
      rw [rereadEntries, List.lookup_cons, List.lookup_cons, ih]
      cases key == k <;> rfl

/-- A string is read from the value that was read back as from the value itself. -/
theorem getString_reread (j : Json) :
    (j.reread.getString : Proc σ Exception Bytes) = j.getString := by
  cases j with
  | numberInteger n =>
      rw [Json.reread]
      split <;> rfl
  | _ => rfl

/-- So is an `int`: signed or unsigned, its low 32 bits are the same. -/
theorem getInt_reread (j : Json) : (j.reread.getInt : Proc σ Exception Int) = j.getInt := by
  cases j with
  | numberInteger n =>
      rw [Json.reread]
      split_ifs with hneg
      · rfl
      · have hnat := toUInt64_toNat (Int.not_lt.mp (mt neg_iff_toInt.mpr hneg))
        rw [Json.getInt, Json.getInt, hnat]
  | _ => rfl

/-- A value that was read back has the same strings under its keys. -/
theorem valueString_reread (j : Json) (key default_value : Bytes) :
    (j.reread.valueString key default_value : Proc σ Exception Bytes) =
      j.valueString key default_value := by
  cases j with
  | object members =>
      rw [Json.reread, Json.valueString, Json.valueString, lookup_rereadEntries]
      cases members.lookup key with
      | none => rfl
      | some member => exact getString_reread member
  | numberInteger n =>
      rw [Json.reread]
      split <;> rfl
  | _ => rfl

/-- And the same `int`s. -/
theorem valueInt_reread (j : Json) (key : Bytes) (default_value : Int) :
    (j.reread.valueInt key default_value : Proc σ Exception Int) =
      j.valueInt key default_value := by
  cases j with
  | object members =>
      rw [Json.reread, Json.valueInt, Json.valueInt, lookup_rereadEntries]
      cases members.lookup key with
      | none => rfl
      | some member => exact getInt_reread member
  | numberInteger n =>
      rw [Json.reread]
      split <;> rfl
  | _ => rfl

/-- So a parameter of a request is the same. -/
theorem parameter_reread (j : Json) (key : Bytes) : parameter j.reread key = parameter j key := by
  cases j with
  | object members =>
      rw [parameter, parameter, Json.reread, Json.at, Json.at, lookup_rereadEntries]
      cases members.lookup (text "parameters") with
      | none => rfl
      | some parameters =>
          funext m
          simp only [Option.map_some, Proc.bind_apply, Proc.pure_apply]
          rw [valueInt_reread]
  | numberInteger n =>
      rw [Json.reread]
      split <;> rfl
  | _ => rfl

/-- The handlers do not tell a value from what is read back for it. -/
theorem handleCommand_reread (p : Platform) (a : Answers) (j : Json) :
    handleCommand p a j.reread = handleCommand p a j := by
  simp only [handleCommand, handleReadI2CRegister, handleWriteI2CRegister,
    handleReadMemoryAddress, valueString_reread, parameter_reread]

/-- A text that is read back for a request is handled as the request. -/
theorem respond_of_readsBack {strtod : Bytes → Double}
    {ensure_ascii : Bool} {request : Json} {message : Bytes} {ts : List Token}
    (h : ReadsBack strtod ensure_ascii request message ts) (p : Platform)
    (a : Answers) : respond (parse strtod) p a message = handleCommand p a request := by
  rw [respond, parseMessage, h.parses, ← handleCommand_reread]
  rfl

/-- **A request arrives.**  A request that a client dumps is handled as the value the
client had. -/
theorem respond_dumpValue {strtod : Bytes → Double}
    (ensure_ascii : Bool) {request : Json}
    (h : Wellformed (Readable strtod) request) :
    ∃ message, dumpValue ensure_ascii request = .ok message ∧
      ∀ p a, respond (parse strtod) p a message = handleCommand p a request := by
  obtain ⟨message, ts, hreads⟩ := readsBack_of_wellformed ensure_ascii h
  exact ⟨message, hreads.dumped, respond_of_readsBack hreads⟩

/-- The request to read one register. -/
def readRequest : Json :=
  .object [(text "command", .string (text "read_i2c_register")),
    (text "parameters", .object [(text "address", .numberInteger 72),
      (text "bus", .numberInteger 1), (text "reg", .numberInteger 5)])]

/-- A request with three numbers, each of them signed where the client builds it. -/
theorem respond_dumpValue_readRequest :
    ∃ message, dumpValue false readRequest = .ok message ∧
      ∀ p a, respond (parse strtodHalf) p a message = handleCommand p a readRequest := by
  refine respond_dumpValue false (.object (by decide) (by decide) ?_)
  refine List.forall_mem_cons.mpr ⟨.string (by decide), List.forall_mem_singleton.mpr ?_⟩
  refine .object (by decide) (by decide) ?_
  exact List.forall_mem_cons.mpr ⟨.leaf (.numberInteger 72), List.forall_mem_cons.mpr
    ⟨.leaf (.numberInteger 1), List.forall_mem_singleton.mpr (.leaf (.numberInteger 5))⟩⟩

end Requests

end CommandServer
