import BlockstreamStation.HandlerOutcomes

/-!
# The server loop

`ZmqServer::Run`: receive a message, parse it, handle the command, send the
reply.  Nothing in the loop catches an exception, so whatever leaves parsing or
`HandleCommand` ends the thread and with it the process.  `stop` is never set
while the program runs.

The parser is a parameter; all that is used of it is that it throws on some
messages and returns a value on the others.

* `serve_returns`, `serve_fails` — one message;
* `run_answers_iff` — the loop answers every message of a run exactly once, in
  order, and is back at `recv`, if and only if every message parses to an
  answerable request.
-/

namespace CommandServer

open CText JsonText Procedures Proc

/-- What `recv` returns: nothing, or a message.  With the message come the
system's answers to the calls its handling makes. -/
inductive Arrival where
  | failure
  | message (bytes : Bytes) (answers : Answers)

/-- What passes the REP socket. -/
inductive Event where
  | received (message : Bytes)
  | sent (reply : Bytes)
deriving DecidableEq

/-- Where the server thread is between two messages. -/
inductive Status where
  | atRecv
  | ended
  | undefined
deriving DecidableEq

structure Server where
  machine : Machine
  status : Status
  events : List Event

/-- A server at its first `recv`. -/
def start (machine : Machine) : Server := ⟨machine, .atRecv, []⟩

section Loop

variable (parse : Bytes → Option Json) (p : Platform)

/-- `nlohmann::json::parse`. -/
def parseMessage (message : Bytes) : Handler Json :=
  match parse message with
  | some command_json => pure command_json
  | none => throwing .parseError

/-- From the message to the response. -/
def respond (a : Answers) (message : Bytes) : Handler Bytes := do
  let command_json ← parseMessage parse message
  handleCommand p a command_json

/-- One pass of the loop. -/
def serve (s : Server) : Arrival → Server
  | .failure => s
  | .message bytes a =>
      match respond parse p a bytes s.machine with
      | (.returns response, m) =>
          { s with machine := m, events := s.events ++ [.received bytes, .sent response] }
      | (.undefined, m) => ⟨m, .undefined, s.events ++ [.received bytes]⟩
      | (_, m) => ⟨m, .ended, s.events ++ [.received bytes]⟩

/-- The loop as a system of labelled steps: a pass is taken at `recv` only. -/
def serveStep (s : Server) (arrival : Arrival) : Option Server :=
  if s.status = .atRecv then some (serve parse p s arrival) else none

/-- The loop over what arrives, for as long as the thread lives. -/
def run (s : Server) : List Arrival → Server
  | [] => s
  | arrival :: rest => if s.status = .atRecv then run (serve parse p s arrival) rest else s

end Loop

/-! ## What a run should look like -/

/-- The messages among the arrivals. -/
def messages (arrivals : List Arrival) : List Bytes :=
  arrivals.filterMap fun
    | .failure => none
    | .message bytes _ => some bytes

/-- Requests and replies in turn. -/
def exchanges (requests replies : List Bytes) : List Event :=
  (List.zipWith (fun request reply => [.received request, .sent reply]) requests replies).flatten

/-- The server is back at `recv` and has sent one reply for each message, before
it received the next. -/
def AnsweredEach (s : Server) (requests : List Bytes) : Prop :=
  s.status = .atRecv ∧
    ∃ replies, replies.length = requests.length ∧ s.events = exchanges requests replies

/-- A message that parses to a request `HandleCommand` returns on. -/
def AnswerableMessage (parse : Bytes → Option Json) (a : Answers) (message : Bytes) : Prop :=
  ∃ command_json, parse message = some command_json ∧ Answerable a command_json

section Runs

variable {parse : Bytes → Option Json} {p : Platform}

/-- Parsing gives what the parser does, or throws. -/
theorem parseMessage_yields (message : Bytes) :
    Yields (parseMessage parse message) (parse message) := by
  unfold parseMessage
  cases parse message with
  | some command_json => exact yields_pure command_json
  | none => exact yields_throwing _

/-- A message is answered exactly if it parses to an answerable request. -/
theorem respond_completes {a : Answers} {message : Bytes} {m : Machine} :
    Completes (respond parse p a message) m ↔ AnswerableMessage parse a message := by
  rw [respond, (parseMessage_yields message).completes_bind]
  exact exists_congr fun command_json => and_congr_right fun _ => handleCommand_completes

/-- An answerable message is answered. -/
theorem serve_returns {s : Server} {a : Answers} {message : Bytes}
    (h : AnswerableMessage parse a message) :
    ∃ m response, serve parse p s (.message message a) =
      { s with machine := m, events := s.events ++ [.received message, .sent response] } := by
  obtain ⟨response, m, hresponse⟩ := respond_completes.mpr h
  exact ⟨m, response, by rw [serve, hresponse]⟩

/-- Any other message is the last. -/
theorem serve_fails {s : Server} {a : Answers} {message : Bytes}
    (h : ¬ AnswerableMessage parse a message) :
    (serve parse p s (.message message a)).status ≠ .atRecv := by
  have hstuck : ¬ Completes (respond parse p a message) s.machine :=
    fun hcompletes => h (respond_completes.mp hcompletes)
  unfold serve
  rcases hresponse : respond parse p a message s.machine with ⟨_ | _ | _ | _, m⟩
  case returns response => exact absurd ⟨response, m, hresponse⟩ hstuck
  all_goals simp [hresponse]

/-- A server that has ended does nothing. -/
theorem run_of_not_atRecv {s : Server} (h : s.status ≠ .atRecv) (arrivals : List Arrival) :
    run parse p s arrivals = s := by
  cases arrivals with
  | nil => rfl
  | cons arrival rest => rw [run, if_neg h]

/-- One arrival at a time. -/
theorem run_cons {s : Server} (h : s.status = .atRecv) (arrival : Arrival)
    (rest : List Arrival) :
    run parse p s (arrival :: rest) = run parse p (serve parse p s arrival) rest := by
  rw [run, if_pos h]

/-- A run that ends at `recv` has met answerable messages only. -/
theorem answerable_of_run (arrivals : List Arrival) :
    ∀ s : Server, s.status = .atRecv → (run parse p s arrivals).status = .atRecv →
      ∀ message a, Arrival.message message a ∈ arrivals →
        AnswerableMessage parse a message := by
  induction arrivals with
  | nil => intro s _ _ message a h; cases h
  | cons arrival rest ih =>
      intro s hs hrun
      rw [run_cons hs] at hrun
      have hserve : (serve parse p s arrival).status = .atRecv := by
        by_contra hne
        rw [run_of_not_atRecv hne] at hrun
        exact hne hrun
      intro message a hmem
      rcases List.mem_cons.mp hmem with rfl | hmem
      · by_contra hne
        exact serve_fails hne hserve
      · exact ih _ hserve hrun message a hmem

/-- A run over answerable messages appends one exchange for each. -/
theorem run_of_answerable (arrivals : List Arrival) :
    ∀ s : Server, s.status = .atRecv →
      (∀ message a, Arrival.message message a ∈ arrivals → AnswerableMessage parse a message) →
      ∃ m replies, replies.length = (messages arrivals).length ∧
        run parse p s arrivals =
          ⟨m, .atRecv, s.events ++ exchanges (messages arrivals) replies⟩ := by
  induction arrivals with
  | nil =>
      intro s hs _
      exact ⟨s.machine, [], rfl, by simp [run, exchanges, ← hs]⟩
  | cons arrival rest ih =>
      intro s hs hall
      have hrest : ∀ message a, Arrival.message message a ∈ rest →
          AnswerableMessage parse a message :=
        fun message a hmem => hall message a (List.mem_cons_of_mem _ hmem)
      rw [run_cons hs]
      cases arrival with
      | failure => exact ih s hs hrest
      | message bytes a =>
          obtain ⟨m₁, response, hserve⟩ := serve_returns (p := p) (s := s)
            (hall bytes a List.mem_cons_self)
          obtain ⟨m, replies, hlength, hrun⟩ := ih (serve parse p s (.message bytes a))
            (by rw [hserve]; exact hs) hrest
          refine ⟨m, response :: replies, ?_, ?_⟩
          · simpa [messages] using hlength
          · rw [hrun, hserve]
            simp [messages, exchanges]

end Runs

/-- The loop answers every message once, in order, and is back at `recv`,
exactly when every message that arrives parses to an answerable request. -/
theorem run_answers_iff (parse : Bytes → Option Json) (p : Platform) (machine : Machine)
    (arrivals : List Arrival) :
    AnsweredEach (run parse p (start machine) arrivals) (messages arrivals) ↔
      ∀ message a, Arrival.message message a ∈ arrivals → AnswerableMessage parse a message := by
  constructor
  · intro hparts
    obtain ⟨hstatus, -⟩ := hparts
    exact answerable_of_run arrivals (start machine) rfl hstatus
  · intro hall
    obtain ⟨m, replies, hlength, hrun⟩ :=
      run_of_answerable (p := p) arrivals (start machine) rfl hall
    rw [hrun]
    exact ⟨rfl, replies, hlength, rfl⟩

/-- A machine with all registers zero, and a system on which every call
succeeds and commands print nothing. -/
def zeroMachine : Machine := ⟨fun _ _ _ => 0, []⟩

def willing : Answers := ⟨true, true, true, true, true, fun _ => 0, some []⟩

/-- A parser that knows one request of the manual and throws on every other
text. -/
def parseVersionRequest (message : Bytes) : Option Json :=
  if message = text "\x7b\"command\":\"get_app_version\"\x7d" then
    some (.object [(text "command", .string (text "get_app_version"))])
  else none

/-- A message that is not JSON ends the server: the exception of the parser
leaves the loop. -/
theorem run_ends_on_ill_formed_text :
    ¬ AnsweredEach
      (run parseVersionRequest ⟨64, 4096⟩ (start zeroMachine) [.message (text "hello") willing])
      (messages [.message (text "hello") willing]) := by
  intro hparts
  obtain ⟨hstatus, -⟩ := hparts
  revert hstatus
  decide

example : (run parseVersionRequest ⟨64, 4096⟩ (start zeroMachine)
    [.message (text "\x7b\"command\":\"get_app_version\"\x7d") willing]).events =
      [.received (text "\x7b\"command\":\"get_app_version\"\x7d"),
        .sent (text "\x7b\"command\":\"ACK\",\"result\":\"1.0.0\"\x7d")] := by
  decide

end CommandServer
