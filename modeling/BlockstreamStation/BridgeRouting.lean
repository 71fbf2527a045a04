import BlockstreamStation.BridgeSystem

/-!
# Every reply reaches the client that asked

The invariant of the bridge and the server together, for any number of
connections and any interleaving of their steps.  A thread that waits on a
socket has one message under way for it: a request still to be handled
(`System.pending`) or the response to it (`System.answered`).  The sockets of
these messages are all different, so each response meets the thread whose
request it answers.

* `routing_of_frame` — what a step of one connection has to show;
* `routing_setClient`, `routing_send`, `routing_handle`, `routing_receive`,
  `routing_of_perm` — what each kind of step keeps;
* `routing_step` — so every step keeps the invariant;
* `replies_delivered` — in every reachable state, each connection has been sent
  exactly the responses of `HandleCommand` to its own chunks, in the order they
  were read, with at most one outstanding and none lost.
-/

namespace TcpBridge

open CText JsonText Procedures CommandServer LabelledRuns

variable {C : Type}

/-! ## Messages under way -/

def ServerPhase.pending : ServerPhase C → List (Envelope C)
  | .received e => [e]
  | _ => []

def ServerPhase.answered : ServerPhase C → List (Nat × Bytes)
  | .responding e response => [(e.socket, response)]
  | _ => []

/-- The requests that are still to be handled. -/
def System.pending (s : System C) : List (Envelope C) := s.server.pending ++ s.requests

/-- The responses on their way back. -/
def System.answered (s : System C) : List (Nat × Bytes) := s.server.answered ++ s.replies

/-- The sockets with a message under way. -/
def System.sockets (s : System C) : List Nat :=
  s.pending.map Envelope.socket ++ s.answered.map Prod.fst

/-! ## One connection and its calls -/

/-- Every chunk has been handled and every response written. -/
def UpToDate (client : Client) (log : List (Handled C)) : Prop :=
  log.map Handled.message = client.chunks.map requestText ∧
    log.map Handled.response = client.written

/-- All but the last chunk have been handled and answered, and `message` is the
request for that one. -/
def Unanswered (client : Client) (log : List (Handled C)) (message : Bytes) : Prop :=
  log.map Handled.message ++ [message] = client.chunks.map requestText ∧
    log.map Handled.response = client.written

/-- Every chunk has been handled, and only the last response, `reply`, is not yet
written. -/
def Answered (client : Client) (log : List (Handled C)) (reply : Bytes) : Prop :=
  log.map Handled.message = client.chunks.map requestText ∧
    log.map Handled.response = client.written ++ [reply]

/-- At most one chunk is without a reply, where at most one request or response is
missing. -/
theorem one_outstanding_of_messages {client : Client} {log : List (Handled C)}
    (unsent unread : List Bytes)
    (hmessages : log.map Handled.message ++ unsent = client.chunks.map requestText)
    (hresponses : log.map Handled.response = client.written ++ unread)
    (hone : unsent.length + unread.length ≤ 1) :
    client.chunks.length ≤ client.written.length + 1 := by
  have hsent := congrArg List.length hmessages
  have hread := congrArg List.length hresponses
  simp only [List.length_append, List.length_map] at hsent hread
  omega

/-- What a thread's phase says about its connection.  While it waits, that
depends on the message under way. -/
def Settled (client : Client) (log : List (Handled C)) : Prop :=
  match client.phase with
  | .reading => UpToDate client log
  | .connected messageToSend => Unanswered client log messageToSend
  | .waiting _ => True
  | .replying received_message => Answered client log received_message
  | .closed => UpToDate client log

/-! ## The invariant -/

variable [DecidableEq C]

/-- The calls of `HandleCommand` for one connection, in order. -/
def System.log (s : System C) (c : C) : List (Handled C) := s.handled.filter (·.conn = c)

/-- The invariant. -/
structure Routing (s : System C) : Prop where
  settled : ∀ c, Settled (s.clients c) (s.log c)
  pending : ∀ e ∈ s.pending, (s.clients e.conn).phase = .waiting e.socket ∧
    Unanswered (s.clients e.conn) (s.log e.conn) e.message
  answered : ∀ x ∈ s.answered, ∃ c, (s.clients c).phase = .waiting x.1 ∧
    Answered (s.clients c) (s.log c) x.2
  present : ∀ c socket, (s.clients c).phase = .waiting socket → socket ∈ s.sockets
  owner : ∀ c d socket, (s.clients c).phase = .waiting socket →
    (s.clients d).phase = .waiting socket → c = d
  fresh : ∀ c socket, (s.clients c).phase = .waiting socket → socket < s.nextSocket
  distinct : s.sockets.Nodup

theorem routing_start (machine : Machine) (buffers : C → Bytes) :
    Routing (start machine buffers) where
  settled := fun _ => ⟨rfl, rfl⟩
  pending := fun _ h => absurd h List.not_mem_nil
  answered := fun _ h => absurd h List.not_mem_nil
  present := fun _ _ h => by simp [start] at h
  owner := fun _ _ _ h => by simp [start] at h
  fresh := fun _ _ h => by simp [start] at h
  distinct := List.nodup_nil

section Steps

variable {s : System C}

/-- A step of one connection `c`, or of the server for it.  The invariant comes
down to what `c` now says, to the messages under way for `c`, and to the sockets
of the others, none of which may get lost. -/
theorem routing_of_frame (h : Routing s) (c : C) {t : System C}
    (hclients : ∀ d, d ≠ c → t.clients d = s.clients d)
    (hlog : ∀ d, d ≠ c → t.log d = s.log d)
    (hsettled : Settled (t.clients c) (t.log c))
    (hpending : ∀ e ∈ t.pending, (e ∈ s.pending ∧ e.conn ≠ c) ∨
      (e.conn = c ∧ (t.clients c).phase = .waiting e.socket ∧
        Unanswered (t.clients c) (t.log c) e.message))
    (hanswered : ∀ x ∈ t.answered, (x ∈ s.answered ∧ (s.clients c).phase ≠ .waiting x.1) ∨
      ((t.clients c).phase = .waiting x.1 ∧ Answered (t.clients c) (t.log c) x.2))
    (hown : ∀ socket, (t.clients c).phase = .waiting socket →
      socket ∈ t.sockets ∧ socket < t.nextSocket ∧
        ∀ d, d ≠ c → (s.clients d).phase ≠ .waiting socket)
    (hkept : ∀ socket ∈ s.sockets, socket ∈ t.sockets ∨ (s.clients c).phase = .waiting socket)
    (hnext : s.nextSocket ≤ t.nextSocket) (hdistinct : t.sockets.Nodup) : Routing t := by
  have hother : ∀ d socket, d ≠ c → (t.clients d).phase = .waiting socket →
      (s.clients d).phase = .waiting socket := by
    intro d socket hdc hd
    rwa [hclients d hdc] at hd
  refine ⟨?_, ?_, ?_, ?_, ?_, ?_, hdistinct⟩
  · intro d
    by_cases hdc : d = c
    · subst hdc
      exact hsettled
    · rw [hclients d hdc, hlog d hdc]
      exact h.settled d
  · intro e he
    rcases hpending e he with ⟨hold, hne⟩ | ⟨hconn, hnew⟩
    · rw [hclients e.conn hne, hlog e.conn hne]
      exact h.pending e hold
    · rw [hconn]
      exact hnew
  · intro x hx
    rcases hanswered x hx with ⟨hold, hidle⟩ | hnew
    · obtain ⟨d, hd, hreply⟩ := h.answered x hold
      have hdc : d ≠ c := fun heq => hidle (heq ▸ hd)
      refine ⟨d, ?_⟩
      rw [hclients d hdc, hlog d hdc]
      exact ⟨hd, hreply⟩
    · exact ⟨c, hnew⟩
  · intro d socket hd
    by_cases hdc : d = c
    · subst hdc
      exact (hown socket hd).1
    · have hold := hother d socket hdc hd
      rcases hkept socket (h.present d socket hold) with hmem | hc
      · exact hmem
      · exact absurd (h.owner d c socket hold hc) hdc
  · intro d d' socket hd hd'
    by_cases hdc : d = c
    · by_cases hdc' : d' = c
      · rw [hdc, hdc']
      · subst hdc
        exact absurd (hother d' socket hdc' hd') ((hown socket hd).2.2 d' hdc')
    · by_cases hdc' : d' = c
      · subst hdc'
        exact absurd (hother d socket hdc hd) ((hown socket hd').2.2 d hdc)
      · exact h.owner d d' socket (hother d socket hdc hd) (hother d' socket hdc' hd')
  · intro d socket hd
    by_cases hdc : d = c
    · subst hdc
      exact (hown socket hd).2.1
    · exact lt_of_lt_of_le (h.fresh d socket (hother d socket hdc hd)) hnext

/-- No other thread waits on the socket of a thread that waits. -/
theorem not_waiting_of_ne (h : Routing s) {c d : C} {socket : Nat}
    (hc : (s.clients c).phase = .waiting socket) (hdc : d ≠ c) :
    (s.clients d).phase ≠ .waiting socket :=
  fun hd => hdc (h.owner d c socket hd hc)

/-- A thread goes on without touching its socket. -/
theorem routing_setClient (h : Routing s) {c : C} {client : Client}
    (hbefore : ∀ socket, (s.clients c).phase ≠ .waiting socket)
    (hafter : ∀ socket, client.phase ≠ .waiting socket)
    (hsettled : Settled client (s.log c)) : Routing (s.setClient c client) := by
  have hsame : (s.setClient c client).clients c = client := Function.update_self ..
  refine routing_of_frame h c (fun d hdc => Function.update_of_ne hdc ..) (fun _ _ => rfl)
    ?_ ?_ ?_ ?_ (fun _ hmem => .inl hmem) (Nat.le_refl _) h.distinct
  · rw [hsame]
    exact hsettled
  · intro e he
    refine .inl ⟨he, fun hconn => hbefore e.socket ?_⟩
    rw [← hconn]
    exact (h.pending e he).1
  · exact fun x hx => .inl ⟨hx, hbefore x.1⟩
  · intro socket hc
    rw [hsame] at hc
    exact absurd hc (hafter socket)

/-- All sockets with a message under way have been opened. -/
theorem lt_nextSocket_of_mem (h : Routing s) {socket : Nat} (hmem : socket ∈ s.sockets) :
    socket < s.nextSocket := by
  rcases List.mem_append.mp hmem with hmem | hmem
  · obtain ⟨e, he, rfl⟩ := List.mem_map.mp hmem
    exact h.fresh e.conn e.socket (h.pending e he).1
  · obtain ⟨x, hx, rfl⟩ := List.mem_map.mp hmem
    obtain ⟨c, hc, -⟩ := h.answered x hx
    exact h.fresh c x.1 hc

/-- A thread sends its request on a new socket. -/
theorem routing_send (h : Routing s) {c : C} {message buffer : Bytes}
    {chunks written : List Bytes}
    (hclient : s.clients c = ⟨.connected message, buffer, chunks, written⟩) :
    Routing { s.setClient c ⟨.waiting s.nextSocket, buffer, chunks, written⟩ with
      nextSocket := s.nextSocket + 1
      requests := s.requests ++ [⟨s.nextSocket, c, message⟩] } := by
  set t : System C := { s.setClient c ⟨.waiting s.nextSocket, buffer, chunks, written⟩ with
    nextSocket := s.nextSocket + 1
    requests := s.requests ++ [⟨s.nextSocket, c, message⟩] }
  have hsame : t.clients c = ⟨.waiting s.nextSocket, buffer, chunks, written⟩ :=
    Function.update_self ..
  have hidle : ∀ socket, (s.clients c).phase ≠ .waiting socket := by simp [hclient]
  have hpending : t.pending = s.pending ++ [⟨s.nextSocket, c, message⟩] :=
    (List.append_assoc ..).symm
  have hsockets : t.sockets.Perm (s.nextSocket :: s.sockets) := by
    unfold System.sockets
    rw [hpending, List.map_append, List.append_assoc]
    exact List.perm_middle
  refine routing_of_frame h c (fun d hdc => Function.update_of_ne hdc ..) (fun _ _ => rfl)
    ?_ ?_ ?_ ?_ ?_ (Nat.le_succ _) ?_
  · rw [hsame]
    trivial
  · intro e he
    rw [hpending] at he
    rcases List.mem_append.mp he with he | he
    · refine .inl ⟨he, fun hconn => hidle e.socket ?_⟩
      rw [← hconn]
      exact (h.pending e he).1
    · obtain rfl := List.mem_singleton.mp he
      have hunanswered := h.settled c
      rw [hclient] at hunanswered
      rw [hsame]
      exact .inr ⟨rfl, rfl, hunanswered⟩
  · exact fun x hx => .inl ⟨hx, hidle x.1⟩
  · intro socket hc
    rw [hsame] at hc
    cases hc
    refine ⟨hsockets.mem_iff.mpr List.mem_cons_self, Nat.lt_succ_self _, fun d _ hd => ?_⟩
    exact absurd (h.fresh d _ hd) (lt_irrefl _)
  · exact fun socket hmem => .inl (hsockets.mem_iff.mpr (List.mem_cons_of_mem _ hmem))
  · rw [hsockets.nodup_iff, List.nodup_cons]
    exact ⟨fun hmem => absurd (lt_nextSocket_of_mem h hmem) (lt_irrefl _), h.distinct⟩

/-- The server handles the request it received. -/
theorem routing_handle (h : Routing s) {e : Envelope C} {response : Bytes} {m : Machine}
    (hserver : s.server = .received e) :
    Routing { s with
      server := .responding e response
      machine := m
      handled := s.handled ++ [⟨e.conn, e.message, response⟩] } := by
  set t : System C := { s with
    server := .responding e response
    machine := m
    handled := s.handled ++ [⟨e.conn, e.message, response⟩] }
  have hpending : s.pending = e :: s.requests := by rw [System.pending, hserver]; rfl
  have hanswered : s.answered = s.replies := by rw [System.answered, hserver]; rfl
  have hsockets : s.sockets.Perm t.sockets := by
    rw [System.sockets, hpending, hanswered]
    exact List.perm_middle.symm
  have hdistinct := h.distinct
  rw [System.sockets, hpending, hanswered, List.map_cons, List.cons_append, List.nodup_cons,
    List.mem_append, not_or] at hdistinct
  obtain ⟨⟨hrequests, hreplies⟩, -⟩ := hdistinct
  have hlog : t.log e.conn = s.log e.conn ++ [⟨e.conn, e.message, response⟩] := by
    simp [System.log, t]
  have hfirst : e ∈ s.pending := by rw [hpending]; exact List.mem_cons_self
  obtain ⟨hphase, hmessages, hresponses⟩ := h.pending e hfirst
  refine routing_of_frame h e.conn (fun _ _ => rfl) ?_ ?_ ?_ ?_ ?_ ?_ (Nat.le_refl _)
    (hsockets.nodup_iff.mp h.distinct)
  · intro d hd
    simp [System.log, t, Ne.symm hd]
  · unfold Settled
    rw [show (t.clients e.conn).phase = .waiting e.socket from hphase]
    trivial
  · intro f hf
    have hold : f ∈ s.pending := by rw [hpending]; exact List.mem_cons_of_mem _ hf
    refine .inl ⟨hold, fun hconn => hrequests ?_⟩
    have hsocket := (h.pending f hold).1
    rw [hconn, hphase] at hsocket
    rw [Phase.waiting.inj hsocket]
    exact List.mem_map_of_mem hf
  · intro x hx
    rcases List.mem_cons.mp hx with rfl | hx
    · refine .inr ⟨hphase, ?_⟩
      rw [hlog, Answered, List.map_append, List.map_append, hresponses]
      exact ⟨hmessages, rfl⟩
    · refine .inl ⟨by rw [hanswered]; exact hx, fun hsocket => hreplies ?_⟩
      rw [hphase] at hsocket
      rw [Phase.waiting.inj hsocket]
      exact List.mem_map_of_mem hx
  · intro socket hc
    refine ⟨hsockets.mem_iff.mp (h.present _ _ hc), h.fresh _ _ hc, fun d hd => ?_⟩
    exact not_waiting_of_ne h hc hd
  · exact fun socket hmem => .inl (hsockets.mem_iff.mp hmem)

/-- A thread takes the reply that came back on its socket. -/
theorem routing_receive (h : Routing s) {c : C} {socket : Nat} {reply buffer : Bytes}
    {chunks written : List Bytes}
    (hclient : s.clients c = ⟨.waiting socket, buffer, chunks, written⟩)
    (hreply : (socket, reply) ∈ s.replies) :
    Routing { s.setClient c ⟨.replying reply, buffer, chunks, written⟩ with
      replies := s.replies.erase (socket, reply) } := by
  set t : System C := { s.setClient c ⟨.replying reply, buffer, chunks, written⟩ with
    replies := s.replies.erase (socket, reply) }
  have hphase : (s.clients c).phase = .waiting socket := by rw [hclient]
  have hsame : t.clients c = ⟨.replying reply, buffer, chunks, written⟩ :=
    Function.update_self ..
  have hanswered : s.answered.Perm ((socket, reply) :: t.answered) :=
    ((List.perm_cons_erase hreply).append_left s.server.answered).trans List.perm_middle
  have hsockets : s.sockets.Perm (socket :: t.sockets) :=
    ((hanswered.map Prod.fst).append_left _).trans List.perm_middle
  obtain ⟨hgone, hdistinct⟩ := List.nodup_cons.mp (hsockets.nodup_iff.mp h.distinct)
  refine routing_of_frame h c (fun d hdc => Function.update_of_ne hdc ..) (fun _ _ => rfl)
    ?_ ?_ ?_ ?_ ?_ (Nat.le_refl _) hdistinct
  · obtain ⟨d, hd, hanswer⟩ := h.answered _ (hanswered.mem_iff.mpr List.mem_cons_self)
    obtain rfl := h.owner d c socket hd hphase
    rw [hclient] at hanswer
    rw [hsame]
    exact hanswer
  · intro e he
    refine .inl ⟨he, fun hconn => hgone ?_⟩
    have hsocket := (h.pending e he).1
    rw [hconn, hphase] at hsocket
    cases hsocket
    exact List.mem_append_left _ (List.mem_map_of_mem he)
  · intro x hx
    refine .inl ⟨hanswered.mem_iff.mpr (List.mem_cons_of_mem _ hx), fun hsocket => hgone ?_⟩
    rw [hphase] at hsocket
    cases hsocket
    exact List.mem_append_right _ (List.mem_map_of_mem hx)
  · intro socket' hc
    rw [hsame] at hc
    cases hc
  · intro socket' hmem
    rcases List.mem_cons.mp (hsockets.mem_iff.mp hmem) with rfl | hmem
    · exact .inr hphase
    · exact .inl hmem

/-- The messages under way change place. -/
theorem routing_of_perm (h : Routing s) {t : System C} (hclients : t.clients = s.clients)
    (hnext : t.nextSocket = s.nextSocket) (hhandled : t.handled = s.handled)
    (hpending : t.pending.Perm s.pending) (hanswered : t.answered.Perm s.answered) :
    Routing t := by
  have hlog : ∀ c, t.log c = s.log c := fun c => by rw [System.log, hhandled, System.log]
  have hsockets : t.sockets.Perm s.sockets :=
    (hpending.map Envelope.socket).append (hanswered.map Prod.fst)
  refine ⟨?_, ?_, ?_, ?_, ?_, ?_, hsockets.nodup_iff.mpr h.distinct⟩
  · intro c
    rw [hclients, hlog]
    exact h.settled c
  · intro e he
    rw [hclients, hlog]
    exact h.pending e (hpending.mem_iff.mp he)
  · intro x hx
    obtain ⟨c, hc⟩ := h.answered x (hanswered.mem_iff.mp hx)
    refine ⟨c, ?_⟩
    rw [hclients, hlog]
    exact hc
  · intro c socket hc
    rw [hclients] at hc
    exact hsockets.mem_iff.mpr (h.present c socket hc)
  · rw [hclients]
    exact h.owner
  · rw [hclients, hnext]
    exact h.fresh

variable {parse : Bytes → Option Json} {p : Platform}

/-- Every step keeps the invariant. -/
theorem routing_step (h : Routing s) {x : Step C} {s' : System C}
    (hstep : step parse p s x = some s') : Routing s' := by
  cases x with
  | readChunk c chunk =>
      simp only [step] at hstep
      split at hstep
      · rename_i buffer chunks written hclient
        obtain ⟨-, ⟨⟩⟩ := Option.ite_none_right_eq_some.mp hstep
        have hsettled : UpToDate (s.clients c) (s.log c) := by
          have := h.settled c
          rw [hclient] at this ⊢
          exact this
        refine routing_setClient h (by simp [hclient]) (by simp) ?_
        obtain ⟨hmessages, hresponses⟩ := hsettled
        rw [hclient] at hmessages hresponses
        refine ⟨?_, hresponses⟩
        rw [hmessages, cstr_receiveInto, List.map_append]
        rfl
      · cases hstep
  | sendRequest c =>
      simp only [step] at hstep
      split at hstep
      · rename_i message buffer chunks written hclient
        obtain rfl := Option.some.inj hstep
        exact routing_send h hclient
      · cases hstep
  | recvReply c reply =>
      simp only [step] at hstep
      split at hstep
      · rename_i socket buffer chunks written hclient
        obtain ⟨hreply, ⟨⟩⟩ := Option.ite_none_right_eq_some.mp hstep
        exact routing_receive h hclient hreply
      · cases hstep
  | tcpSend c =>
      simp only [step] at hstep
      split at hstep
      · rename_i reply buffer chunks written hclient
        obtain rfl := Option.some.inj hstep
        have hsettled := h.settled c
        rw [hclient] at hsettled
        exact routing_setClient h (by simp [hclient]) (by simp) hsettled
      · cases hstep
  | eof c =>
      simp only [step] at hstep
      split at hstep
      · rename_i buffer chunks written hclient
        obtain rfl := Option.some.inj hstep
        have hsettled := h.settled c
        rw [hclient] at hsettled
        exact routing_setClient h (by simp [hclient]) (by simp) hsettled
      · cases hstep
  | serverRecv e =>
      simp only [step] at hstep
      split at hstep
      · rename_i hserver
        obtain ⟨he, ⟨⟩⟩ := Option.ite_none_right_eq_some.mp hstep
        refine routing_of_perm h rfl rfl rfl ?_ ?_
        · rw [System.pending, System.pending, hserver]
          exact (List.perm_cons_erase he).symm
        · rw [System.answered, System.answered, hserver]
          exact List.Perm.refl _
      · cases hstep
  | handle a =>
      simp only [step] at hstep
      split at hstep
      · rename_i e hserver
        split at hstep
        · obtain rfl := Option.some.inj hstep
          exact routing_handle h hserver
        · cases hstep
      · cases hstep
  | serverSend =>
      simp only [step] at hstep
      split at hstep
      · rename_i e response hserver
        obtain rfl := Option.some.inj hstep
        refine routing_of_perm h rfl rfl rfl ?_ ?_
        · rw [System.pending, System.pending, hserver]
          exact List.Perm.refl _
        · rw [System.answered, System.answered, hserver]
          change (s.replies ++ [(e.socket, response)]).Perm ([(e.socket, response)] ++ s.replies)
          exact List.perm_append_comm
      · cases hstep

end Steps

/-! ## Delivery -/

/-- A response of `HandleCommand` is on its way to a connection: with the server
or under way to the socket its thread waits on, or with the thread. -/
def OnItsWay (s : System C) (c : C) (reply : Bytes) : Prop :=
  (∃ socket, (s.clients c).phase = .waiting socket ∧ (socket, reply) ∈ s.answered) ∨
    (s.clients c).phase = .replying reply

/-- What one connection can count on. -/
structure Delivered (parse : Bytes → Option Json) (p : Platform) (s : System C) (c : C) :
    Prop where
  /-- The calls recorded are calls that returned. -/
  genuine : ∀ call ∈ s.log c, ∃ a m m',
    respond parse p a call.message m = (.returns call.response, m')
  /-- The requests handled are those of the first chunks, in the order read. -/
  in_order : (s.log c).map Handled.message <+: (s.clients c).chunks.map requestText
  /-- The replies written are the responses to these requests, in that order. -/
  matched : (s.clients c).written <+: (s.log c).map Handled.response
  /-- At most one chunk is without a reply. -/
  one_outstanding : (s.clients c).chunks.length ≤ (s.clients c).written.length + 1
  /-- A response that is not yet written is on its way to this connection. -/
  none_lost : (s.log c).map Handled.response = (s.clients c).written ∨
    ∃ reply, (s.log c).map Handled.response = (s.clients c).written ++ [reply] ∧
      OnItsWay s c reply

/-- All calls recorded have returned. -/
def Genuine (parse : Bytes → Option Json) (p : Platform) (s : System C) : Prop :=
  ∀ call ∈ s.handled, ∃ a m m', respond parse p a call.message m = (.returns call.response, m')

section Delivery

variable {s : System C} {parse : Bytes → Option Json} {p : Platform}

theorem genuine_step (h : Genuine parse p s) {x : Step C} {s' : System C}
    (hstep : step parse p s x = some s') : Genuine parse p s' := by
  cases x with
  | handle a =>
      simp only [step] at hstep
      split at hstep
      · rename_i e _
        split at hstep
        · rename_i response m hreturns
          obtain rfl := Option.some.inj hstep
          intro call hcall
          rcases List.mem_append.mp hcall with hcall | hcall
          · exact h call hcall
          · obtain rfl := List.mem_singleton.mp hcall
            exact ⟨a, s.machine, m, hreturns⟩
        · cases hstep
      · cases hstep
  | _ =>
      simp only [step] at hstep
      split at hstep
      · first
          | (obtain ⟨-, ⟨⟩⟩ := Option.ite_none_right_eq_some.mp hstep; exact h)
          | (obtain rfl := Option.some.inj hstep; exact h)
      · cases hstep

/-- The message under way of a waiting thread. -/
theorem waiting_cases (h : Routing s) {c : C} {socket : Nat}
    (hphase : (s.clients c).phase = .waiting socket) :
    (∃ message, Unanswered (s.clients c) (s.log c) message) ∨
      ∃ reply, Answered (s.clients c) (s.log c) reply ∧ (socket, reply) ∈ s.answered := by
  rcases List.mem_append.mp (h.present c socket hphase) with hmem | hmem
  · obtain ⟨e, he, rfl⟩ := List.mem_map.mp hmem
    obtain ⟨hconn, hunanswered⟩ := h.pending e he
    obtain rfl := h.owner e.conn c e.socket hconn hphase
    exact .inl ⟨e.message, hunanswered⟩
  · obtain ⟨x, hx, rfl⟩ := List.mem_map.mp hmem
    obtain ⟨d, hd, hanswered⟩ := h.answered x hx
    obtain rfl := h.owner d c x.1 hd hphase
    exact .inr ⟨x.2, hanswered, hx⟩

/-- Where a connection stands: up to date, waiting for one answer, or with one
answer on its way. -/
theorem connection_cases (h : Routing s) (c : C) :
    UpToDate (s.clients c) (s.log c) ∨
      (∃ message, Unanswered (s.clients c) (s.log c) message) ∨
      ∃ reply, Answered (s.clients c) (s.log c) reply ∧ OnItsWay s c reply := by
  have hsettled := h.settled c
  unfold Settled at hsettled
  cases hphase : (s.clients c).phase with
  | reading =>
      rw [hphase] at hsettled
      exact .inl hsettled
  | connected message =>
      rw [hphase] at hsettled
      exact .inr (.inl ⟨message, hsettled⟩)
  | waiting socket =>
      rcases waiting_cases h hphase with hunanswered | ⟨reply, hanswered, hmem⟩
      · exact .inr (.inl hunanswered)
      · exact .inr (.inr ⟨reply, hanswered, .inl ⟨socket, hphase, hmem⟩⟩)
  | replying reply =>
      rw [hphase] at hsettled
      exact .inr (.inr ⟨reply, hsettled, .inr hphase⟩)
  | closed =>
      rw [hphase] at hsettled
      exact .inl hsettled

theorem delivered_of_routing (h : Routing s) (hgenuine : Genuine parse p s) (c : C) :
    Delivered parse p s c := by
  have hcalls : ∀ call ∈ s.log c, ∃ a m m',
      respond parse p a call.message m = (.returns call.response, m') :=
    fun call hcall => hgenuine call (List.mem_filter.mp hcall).1
  rcases connection_cases h c with ⟨hmessages, hresponses⟩ | ⟨message, hmessages, hresponses⟩ |
    ⟨reply, ⟨hmessages, hresponses⟩, hway⟩
  · refine ⟨hcalls, ?_, ?_, ?_, .inl hresponses⟩
    · rw [hmessages]
    · rw [hresponses]
    · exact one_outstanding_of_messages [] [] (by simpa using hmessages)
        (by simpa using hresponses) (by decide)
  · refine ⟨hcalls, ?_, ?_, ?_, .inl hresponses⟩
    · rw [← hmessages]
      exact List.prefix_append _ _
    · rw [hresponses]
    · exact one_outstanding_of_messages [message] [] hmessages (by simpa using hresponses)
        (Nat.le_refl 1)
  · refine ⟨hcalls, ?_, ?_, ?_, .inr ⟨reply, hresponses, hway⟩⟩
    · rw [hmessages]
    · rw [hresponses]
      exact List.prefix_append _ _
    · exact one_outstanding_of_messages [] [reply] (by simpa using hmessages) hresponses
        (Nat.le_refl 1)

/-- Every run keeps the invariants behind delivery. -/
theorem delivered_of_exec {machine : Machine} {buffers : C → Bytes} {steps : List (Step C)}
    (hexec : exec (step parse p) (start machine buffers) steps = some s) (c : C) :
    Delivered parse p s c := by
  have hstart : Genuine parse p (start machine buffers) := by
    intro call hcall
    cases hcall
  have hrouting : Routing s :=
    exec_invariant (fun _ _ _ h hstep => routing_step h hstep) steps _ s
      (routing_start machine buffers) hexec
  have hgenuine : Genuine parse p s :=
    exec_invariant (fun _ _ _ h hstep => genuine_step h hstep) steps _ s hstart hexec
  exact delivered_of_routing hrouting hgenuine c

end Delivery

/-- In every state of every run, each connection has been sent exactly the
responses of `HandleCommand` to its own chunks, in the order they were read. -/
theorem replies_delivered (parse : Bytes → Option Json) (p : Platform) (machine : Machine)
    (buffers : C → Bytes) (steps : List (Step C)) :
    Always (step parse p) (fun s => ∀ c, Delivered parse p s c) (start machine buffers) steps := by
  intro front _ s _ hexec c
  exact delivered_of_exec hexec c

/-- Two clients ask for the version; the second request is handled first. -/
def twoClientsRun : List (Step Bool) :=
  let request := text "\x7b\"command\":\"get_app_version\"\x7d"
  let reply := text "\x7b\"command\":\"ACK\",\"result\":\"1.0.0\"\x7d"
  [.readChunk true request, .readChunk false request, .sendRequest false, .sendRequest true,
    .serverRecv ⟨1, true, request⟩, .handle willing, .serverSend, .serverRecv ⟨0, false, request⟩,
    .recvReply true reply, .handle willing, .tcpSend true, .serverSend, .recvReply false reply,
    .tcpSend false, .eof true]

example : (exec (step parseVersionRequest ⟨64, 4096⟩) (start zeroMachine fun _ => [])
    twoClientsRun).map (fun s => ((s.clients true).phase, (s.clients false).written.length)) =
      some (.closed, 1) := by
  decide +kernel

end TcpBridge
