import BlockstreamStation.LabelledRuns
import BlockstreamStation.ServerRun
import Mathlib.Logic.Function.Basic

/-!
# The TCP bridge and the command server together

The threads of `zmq_client` that run `handleClient`, each with a TCP connection
of its own, and the one thread of the server in `ZmqServer::Run`, with the
messages between them.  A thread opens a new REQ socket for every chunk it
reads; sockets are told apart by numbers given out in the order they are opened.

    thread   readChunk c chunk   recv, terminate, copy to messageToSend
             sendRequest c       open a REQ socket and send on it
             recvReply c reply   the reply that came back on that socket
             tcpSend c           write it to the connection
             eof c               recv returns nothing: close
    server   serverRecv e        any of the requests in flight
             handle a            parse and HandleCommand, where they return
             serverSend          to the peer of the last recv

What ZeroMQ promises is built into the steps: a request is taken out of flight
when it is received, and a reply goes to the socket of the request the server
received last.  `handled` is a record of the calls of `HandleCommand`; no step
looks at it, nor at the connection an envelope carries for that record.
-/

namespace TcpBridge

open CText JsonText Procedures CommandServer

/-! ## One thread -/

/-- The size of the buffer of `handleClient`. -/
def bufferSize : Nat := 1024

/-- `recv` into the buffer and the terminator behind what was read.  After a
full buffer the terminator lands in the byte behind it. -/
def receiveInto (buffer chunk : Bytes) : Bytes := chunk ++ 0 :: buffer.drop (chunk.length + 1)

/-- What `messageToSend` holds after a chunk: the buffer as a C string. -/
def requestText (chunk : Bytes) : Bytes := cstr chunk

/-- Nothing of earlier chunks gets into the message. -/
theorem cstr_receiveInto (buffer chunk : Bytes) :
    cstr (receiveInto buffer chunk) = requestText chunk := by
  unfold receiveInto requestText cstr
  rw [List.takeWhile_append]
  split
  · rename_i hlength
    have hall : chunk.takeWhile (· ≠ 0) = chunk :=
      (List.takeWhile_prefix _).eq_of_length hlength
    rw [List.takeWhile_cons_of_neg (by simp), List.append_nil, hall]
  · rfl

/-- Where a thread is in its loop. -/
inductive Phase where
  | reading
  | connected (messageToSend : Bytes)
  | waiting (socket : Nat)
  | replying (received_message : Bytes)
  | closed
deriving DecidableEq

/-- A thread with its connection: what was read from it and written to it. -/
structure Client where
  phase : Phase
  buffer : Bytes
  chunks : List Bytes
  written : List Bytes

/-! ## The whole system -/

section System

variable {C : Type}

/-- A request on its way, with the socket it was sent on. -/
structure Envelope (C : Type) where
  socket : Nat
  conn : C
  message : Bytes
deriving DecidableEq

/-- A call of `HandleCommand` that returned. -/
structure Handled (C : Type) where
  conn : C
  message : Bytes
  response : Bytes

/-- Where the server is in its loop. -/
inductive ServerPhase (C : Type) where
  | atRecv
  | received (e : Envelope C)
  | responding (e : Envelope C) (response : Bytes)

structure System (C : Type) where
  clients : C → Client
  nextSocket : Nat
  requests : List (Envelope C)
  server : ServerPhase C
  machine : Machine
  replies : List (Nat × Bytes)
  handled : List (Handled C)

/-- All threads at their first `recv`, with whatever is in their buffers. -/
def start (machine : Machine) (buffers : C → Bytes) : System C where
  clients c := ⟨.reading, buffers c, [], []⟩
  nextSocket := 0
  requests := []
  server := .atRecv
  machine := machine
  replies := []
  handled := []

inductive Step (C : Type) where
  | readChunk (c : C) (chunk : Bytes)
  | sendRequest (c : C)
  | recvReply (c : C) (reply : Bytes)
  | tcpSend (c : C)
  | eof (c : C)
  | serverRecv (e : Envelope C)
  | handle (a : Answers)
  | serverSend

variable [DecidableEq C]

/-- One thread goes on. -/
def System.setClient (s : System C) (c : C) (client : Client) : System C :=
  { s with clients := Function.update s.clients c client }

variable (parse : Bytes → Option Json) (p : Platform)

def step (s : System C) : Step C → Option (System C)
  | .readChunk c chunk =>
      match s.clients c with
      | ⟨.reading, buffer, chunks, written⟩ =>
          if 0 < chunk.length ∧ chunk.length ≤ bufferSize then
            some (s.setClient c ⟨.connected (cstr (receiveInto buffer chunk)),
              receiveInto buffer chunk, chunks ++ [chunk], written⟩)
          else none
      | _ => none
  | .sendRequest c =>
      match s.clients c with
      | ⟨.connected messageToSend, buffer, chunks, written⟩ =>
          some { s.setClient c ⟨.waiting s.nextSocket, buffer, chunks, written⟩ with
            nextSocket := s.nextSocket + 1
            requests := s.requests ++ [⟨s.nextSocket, c, messageToSend⟩] }
      | _ => none
  | .recvReply c reply =>
      match s.clients c with
      | ⟨.waiting socket, buffer, chunks, written⟩ =>
          if (socket, reply) ∈ s.replies then
            some { s.setClient c ⟨.replying reply, buffer, chunks, written⟩ with
              replies := s.replies.erase (socket, reply) }
          else none
      | _ => none
  | .tcpSend c =>
      match s.clients c with
      | ⟨.replying received_message, buffer, chunks, written⟩ =>
          some (s.setClient c ⟨.reading, buffer, chunks, written ++ [received_message]⟩)
      | _ => none
  | .eof c =>
      match s.clients c with
      | ⟨.reading, buffer, chunks, written⟩ =>
          some (s.setClient c ⟨.closed, buffer, chunks, written⟩)
      | _ => none
  | .serverRecv e =>
      match s.server with
      | .atRecv =>
          if e ∈ s.requests then
            some { s with requests := s.requests.erase e, server := .received e }
          else none
      | _ => none
  | .handle a =>
      match s.server with
      | .received e =>
          match respond parse p a e.message s.machine with
          | (.returns response, m) =>
              some { s with
                server := .responding e response
                machine := m
                handled := s.handled ++ [⟨e.conn, e.message, response⟩] }
          | _ => none
      | _ => none
  | .serverSend =>
      match s.server with
      | .responding e response =>
          some { s with server := .atRecv, replies := s.replies ++ [(e.socket, response)] }
      | _ => none

end System

end TcpBridge
