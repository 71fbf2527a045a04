import BlockstreamStation.BridgeRouting

/-!
# What the cutting of a TCP stream does to the requests

`handleClient` takes whatever one `recv` returns for a command and sends it on
as one request.  A TCP stream has no such boundaries: the network may cut it
anywhere.  The first part is one thread's loop as a function of what its `recv`
returns (`handleClient`), which is what a thread of the whole system does
(`log_eq_handleClient`).  The second is the same loop on its real buffer, with
every write of it (`handleClient_of_forwarded`); the third compares two cuttings
of one stream.

The requests follow the cutting chunk by chunk (`handleClient_requests`), each
without what follows a NUL and as long as none fills the whole buffer
(`chunk_forwarded_iff`), so that two cuttings give different requests as soon as
there are two of them: `segmentation_independent_iff`.
-/

namespace TcpBridge

open CText JsonText Procedures CommandServer LabelledRuns

/-! ## One thread's loop -/

/-- What a thread has sent to ZeroMQ and written to its connection. -/
structure Session where
  requests : List Bytes
  written : List Bytes

/-- The loop of `handleClient` over the results of `recv`.  Each request is
answered before the next `recv`; what the server answers may depend on all it
was sent. -/
def handleClient (answer : List Bytes → Bytes) : Bytes → Session → List Bytes → Session
  | _, session, [] => session
  | buffer, session, chunk :: rest =>
      let buffer := receiveInto buffer chunk
      let messageToSend := cstr buffer
      let requests := session.requests ++ [messageToSend]
      handleClient answer buffer ⟨requests, session.written ++ [answer requests]⟩ rest

/-- One request for each chunk: its bytes up to the first NUL. -/
theorem handleClient_requests (answer : List Bytes → Bytes) (chunks : List Bytes) :
    ∀ (buffer : Bytes) (session : Session),
      (handleClient answer buffer session chunks).requests =
        session.requests ++ chunks.map requestText := by
  induction chunks with
  | nil =>
      intro buffer session
      simp [handleClient]
  | cons chunk rest ih =>
      intro buffer session
      rw [handleClient, ih, cstr_receiveInto, List.map_cons, List.append_assoc,
        List.singleton_append]

/-- A thread of the whole system that is back at `recv` has had the requests of
this loop handled, for the chunks it has read. -/
theorem log_eq_handleClient {C : Type} [DecidableEq C] {parse : Bytes → Option Json}
    {p : Platform} {machine : Machine} {buffers : C → Bytes} {steps : List (Step C)}
    {s : System C} (hrun : exec (step parse p) (start machine buffers) steps = some s)
    {c : C} (hphase : (s.clients c).phase = .reading) (answer : List Bytes → Bytes) :
    (s.log c).map Handled.message =
      (handleClient answer (buffers c) ⟨[], []⟩ (s.clients c).chunks).requests := by
  have hrouting : Routing s :=
    exec_invariant (fun s x s' hs hx => routing_step hs hx) steps _ s
      (routing_start machine buffers) hrun
  have hsettled := hrouting.settled c
  rw [Settled, hphase] at hsettled
  rw [handleClient_requests, List.nil_append]
  exact hsettled.1

/-! ## The receive buffer -/

/-- What `recv` can return: at least one byte, and no more than the buffer
holds. -/
structure Chunk where
  bytes : Bytes
  nonempty : bytes ≠ []
  length_le : bytes.length ≤ bufferSize

/-- Is there room for the terminator behind a chunk? -/
def Chunk.LeavesRoom (chunk : Chunk) : Prop := chunk.bytes.length < bufferSize

instance (chunk : Chunk) : Decidable chunk.LeavesRoom := by
  unfold Chunk.LeavesRoom; infer_instance

/-- The bytes of `buffer`. -/
structure Buffer where
  bytes : Bytes
  length_eq : bytes.length = bufferSize

namespace Buffer

/-- A write to the buffer, if it is inside. -/
def write (buffer : Buffer) (index : Nat) (byte : UInt8) : Option Buffer :=
  if index < bufferSize then
    some ⟨buffer.bytes.set index byte, by rw [List.length_set, buffer.length_eq]⟩
  else none

/-- Bytes written one after the other from an index on. -/
def writeFrom (buffer : Buffer) (index : Nat) : Bytes → Option Buffer
  | [] => some buffer
  | b :: rest => do
      let buffer ← buffer.write index b
      buffer.writeFrom (index + 1) rest

/-- `recv` of a chunk and `buffer[bytesRead] = '\0'`. -/
def receive (buffer : Buffer) (chunk : Chunk) : Option Buffer := do
  let buffer ← buffer.writeFrom 0 chunk.bytes
  buffer.write chunk.bytes.length 0

/-- The requests of the loop, as long as all its writes are inside the buffer. -/
def forwarded : Buffer → List Chunk → Option (List Bytes)
  | _, [] => some []
  | buffer, chunk :: rest => do
      let buffer ← buffer.receive chunk
      let requests ← buffer.forwarded rest
      return cstr buffer.bytes :: requests

theorem write_of_lt {index : Nat} (h : index < bufferSize) (buffer : Buffer) (byte : UInt8) :
    ∃ buffer', buffer.write index byte = some buffer' ∧
      buffer'.bytes = buffer.bytes.set index byte :=
  ⟨_, if_pos h, rfl⟩

theorem writeFrom_of_le (bytes : Bytes) :
    ∀ (buffer : Buffer) (index : Nat), index + bytes.length ≤ bufferSize →
      ∃ buffer', buffer.writeFrom index bytes = some buffer' ∧
        buffer'.bytes = buffer.bytes.take index ++ bytes ++
          buffer.bytes.drop (index + bytes.length) := by
  induction bytes with
  | nil =>
      intro buffer index _
      exact ⟨buffer, rfl, by simp⟩
  | cons b rest ih =>
      intro buffer index hle
      rw [List.length_cons] at hle
      obtain ⟨written, hwrite, hbytes⟩ := write_of_lt (show index < bufferSize by omega) buffer b
      obtain ⟨buffer', hrest, hall⟩ := ih written (index + 1) (by omega)
      refine ⟨buffer', by rw [writeFrom, hwrite]; exact hrest, ?_⟩
      have hindex : index < buffer.bytes.length := by
        rw [buffer.length_eq]
        omega
      have htake : (buffer.bytes.set index b).take (index + 1) =
          buffer.bytes.take index ++ [b] := by
        rw [List.take_add_one, List.take_set_of_le (Nat.le_refl index),
          List.getElem?_set_self hindex]
        rfl
      have hdrop : (buffer.bytes.set index b).drop (index + 1 + rest.length) =
          buffer.bytes.drop (index + (b :: rest).length) := by
        rw [List.drop_set_of_lt (by omega), List.length_cons, Nat.add_right_comm, Nat.add_assoc]
      rw [hall, hbytes, htake, hdrop, List.append_assoc _ [b], List.singleton_append]

/-- A chunk that leaves room for the terminator comes in as it does into a buffer
without end. -/
theorem receive_of_leavesRoom {chunk : Chunk} (h : chunk.LeavesRoom) (buffer : Buffer) :
    ∃ buffer', buffer.receive chunk = some buffer' ∧
      buffer'.bytes = receiveInto buffer.bytes chunk.bytes := by
  unfold Chunk.LeavesRoom at h
  obtain ⟨filled, hfill, hfilled⟩ := writeFrom_of_le chunk.bytes buffer 0 (by omega)
  obtain ⟨buffer', hwrite, hbytes⟩ := write_of_lt h filled 0
  refine ⟨buffer', by rw [receive, hfill]; exact hwrite, ?_⟩
  have hlength : chunk.bytes.length < buffer.bytes.length := by rwa [buffer.length_eq]
  rw [hbytes, hfilled, receiveInto, List.take_zero, List.nil_append, Nat.zero_add,
    List.set_append_right _ _ (Nat.le_refl _), Nat.sub_self, List.drop_eq_getElem_cons hlength,
    List.set_cons_zero]

/-- A chunk that fills the buffer has its terminator written behind the end. -/
theorem receive_of_full {chunk : Chunk} (h : ¬ chunk.LeavesRoom) (buffer : Buffer) :
    buffer.receive chunk = none := by
  obtain ⟨filled, hfill, -⟩ := writeFrom_of_le chunk.bytes buffer 0
    (by rw [Nat.zero_add]; exact chunk.length_le)
  rw [receive, hfill]
  exact if_neg h

/-- The loop goes on until a chunk fills the buffer. -/
theorem forwarded_eq (chunks : List Chunk) :
    ∀ buffer : Buffer, buffer.forwarded chunks =
      if ∀ chunk ∈ chunks, chunk.LeavesRoom then
        some (chunks.map fun chunk => requestText chunk.bytes)
      else none := by
  induction chunks with
  | nil => intro buffer; simp [forwarded]
  | cons chunk rest ih =>
      intro buffer
      rw [forwarded]
      by_cases h : chunk.LeavesRoom
      · obtain ⟨buffer', hreceive, hbytes⟩ := receive_of_leavesRoom h buffer
        rw [hreceive, Option.bind_eq_bind, Option.bind_some, ih, hbytes, cstr_receiveInto]
        simp only [List.forall_mem_cons, h, true_and]
        split <;> rfl
      · simp only [receive_of_full h, List.forall_mem_cons, h, false_and, if_false]
        rfl

end Buffer

/-- As long as its writes are inside, the loop on the real buffer sends what the
loop above does. -/
theorem handleClient_of_forwarded (answer : List Bytes → Bytes) {buffer : Buffer}
    {chunks : List Chunk} {requests : List Bytes} (h : buffer.forwarded chunks = some requests) :
    (handleClient answer buffer.bytes ⟨[], []⟩ (chunks.map Chunk.bytes)).requests = requests := by
  rw [Buffer.forwarded_eq, Option.ite_none_right_eq_some] at h
  rw [handleClient_requests, List.nil_append, List.map_map]
  exact Option.some.inj h.2

/-- After the earlier chunks of its connection, a chunk is forwarded: no write of
the loop was outside the buffer, and the request for the chunk is the chunk. -/
def Forwards (buffer : Buffer) (earlier : List Chunk) (chunk : Chunk) : Prop :=
  ∃ requests, buffer.forwarded (earlier ++ [chunk]) = some (requests ++ [chunk.bytes])

/-- **Chunks, exactly.**  Whatever the buffer held at first, a chunk is forwarded
as it is if and only if it has no NUL and no chunk of the connection so far, itself
included, has filled the whole buffer. -/
theorem chunk_forwarded_iff (buffer : Buffer) (earlier : List Chunk) (chunk : Chunk) :
    Forwards buffer earlier chunk ↔
      (∀ c ∈ earlier ++ [chunk], c.LeavesRoom) ∧ 0 ∉ chunk.bytes := by
  unfold Forwards
  simp only [Buffer.forwarded_eq, Option.ite_none_right_eq_some, ← cstr_eq_self_iff,
    List.map_append, List.map_singleton, Option.some.injEq]
  constructor
  · intro h
    obtain ⟨requests, hroom, hsame⟩ := h
    exact ⟨hroom, List.singleton_inj.mp (List.append_inj_right' hsame rfl)⟩
  · intro h
    exact ⟨_, h.1, congrArg (_ ++ [·]) h.2⟩

/-- A buffer of zeros, a chunk that fills it and one with a NUL inside. -/
def zeroBuffer : Buffer := ⟨List.replicate bufferSize 0, List.length_replicate⟩

def fullChunk : Chunk where
  bytes := List.replicate bufferSize 97
  nonempty := by
    rw [Ne, List.replicate_eq_nil_iff]
    decide
  length_le := by rw [List.length_replicate]

def nulChunk : Chunk := ⟨[97, 0, 98], by decide, by decide⟩

/-- The terminator of a full chunk is written to index 1024, and what follows a NUL
is not sent. -/
theorem chunk_not_forwarded :
    (fullChunk.bytes.length = 1024 ∧ ¬ Forwards zeroBuffer [] fullChunk) ∧
      zeroBuffer.forwarded [nulChunk] = some [[97]] ∧ ¬ Forwards zeroBuffer [] nulChunk := by
  have hfull : ¬ fullChunk.LeavesRoom := by
    rw [Chunk.LeavesRoom, fullChunk, List.length_replicate]
    exact Nat.lt_irrefl _
  have hnul : zeroBuffer.forwarded [nulChunk] = some [[97]] := by
    rw [Buffer.forwarded_eq]
    decide
  refine ⟨⟨List.length_replicate, fun h => ?_⟩, hnul, fun h => ?_⟩
  · obtain ⟨requests, hforwarded⟩ := h
    rw [List.nil_append, Buffer.forwarded, Buffer.receive_of_full hfull] at hforwarded
    cases hforwarded
  · obtain ⟨requests, hforwarded⟩ := h
    rw [List.nil_append, hnul] at hforwarded
    have hlast := congrArg List.getLast? (Option.some.inj hforwarded)
    rw [List.getLast?_concat] at hlast
    revert hlast
    decide

/-! ## Two cuttings -/

/-- A way the network may cut a stream: the results of `recv` until its end. -/
structure Cutting (stream : Bytes) where
  chunks : List Bytes
  whole : chunks.flatten = stream
  nonempty : ∀ chunk ∈ chunks, chunk ≠ []
  length_le : ∀ chunk ∈ chunks, chunk.length ≤ 1023

/-- Whatever the server answers and the buffer held before, all cuttings of the
stream make `handleClient` send the same requests. -/
def SegmentationIndependent (stream : Bytes) : Prop :=
  ∀ (first second : Cutting stream) (answer : List Bytes → Bytes) (buffer : Bytes),
    (handleClient answer buffer ⟨[], []⟩ first.chunks).requests =
      (handleClient answer buffer ⟨[], []⟩ second.chunks).requests

namespace Cutting

/-- A cutting of what follows, with one more chunk in front. -/
def cons {stream : Bytes} (chunk : Bytes) (hne : chunk ≠ []) (hlength : chunk.length ≤ 1023)
    (rest : Cutting stream) : Cutting (chunk ++ stream) where
  chunks := chunk :: rest.chunks
  whole := by rw [List.flatten_cons, rest.whole]
  nonempty := by
    intro c hc
    rcases List.mem_cons.mp hc with rfl | hc
    · exact hne
    · exact rest.nonempty c hc
  length_le := by
    intro c hc
    rcases List.mem_cons.mp hc with rfl | hc
    · exact hlength
    · exact rest.length_le c hc

/-- Every byte in a chunk of its own. -/
def bytewise : (stream : Bytes) → Cutting stream
  | [] => ⟨[], rfl, by simp, by simp⟩
  | b :: rest => cons [b] (by simp) (by simp) (bytewise rest)

/-- A cutting has at most as many chunks as the stream has bytes. -/
theorem length_chunks_le {stream : Bytes} (cutting : Cutting stream) :
    cutting.chunks.length ≤ stream.length := by
  have hlength : ∀ chunks : List Bytes, (∀ chunk ∈ chunks, chunk ≠ []) →
      chunks.length ≤ chunks.flatten.length := by
    intro chunks
    induction chunks with
    | nil => intro _; simp
    | cons chunk rest ih =>
        intro hne
        have hfirst := List.length_pos_iff.mpr (hne chunk List.mem_cons_self)
        have hrest := ih fun c hc => hne c (List.mem_cons_of_mem _ hc)
        rw [List.flatten_cons, List.length_append, List.length_cons]
        omega
  calc cutting.chunks.length
      ≤ cutting.chunks.flatten.length := hlength cutting.chunks cutting.nonempty
    _ = stream.length := congrArg List.length cutting.whole

/-- A stream of one byte or none can be cut in one way only. -/
theorem chunks_of_length_le_one {stream : Bytes} (h : stream.length ≤ 1)
    (cutting : Cutting stream) : cutting.chunks = if stream = [] then [] else [stream] := by
  have hcount := cutting.length_chunks_le
  have hwhole := cutting.whole
  match hchunks : cutting.chunks with
  | [] =>
      rw [hchunks, List.flatten_nil] at hwhole
      rw [if_pos hwhole.symm]
  | [chunk] =>
      have hne := cutting.nonempty chunk (by rw [hchunks]; exact List.mem_cons_self)
      rw [hchunks, List.flatten_singleton] at hwhole
      rw [if_neg (hwhole ▸ hne), hwhole]
  | chunk :: next :: rest =>
      rw [hchunks] at hcount
      simp only [List.length_cons] at hcount
      omega

end Cutting

/-- Without NULs the requests tell the cuttings apart. -/
theorem requests_eq_iff_of_no_nul {stream : Bytes} (hnul : 0 ∉ stream)
    (first second : Cutting stream) (answer : List Bytes → Bytes) (buffer : Bytes) :
    (handleClient answer buffer ⟨[], []⟩ first.chunks).requests =
        (handleClient answer buffer ⟨[], []⟩ second.chunks).requests ↔
      first.chunks = second.chunks := by
  have htext : ∀ cutting : Cutting stream,
      cutting.chunks.map requestText = cutting.chunks := by
    intro cutting
    have hsame : ∀ chunk ∈ cutting.chunks, requestText chunk = chunk := by
      intro chunk hchunk
      apply cstr_eq_self
      intro h
      apply hnul
      rw [← cutting.whole]
      exact List.mem_flatten.mpr ⟨chunk, hchunk, h⟩
    rw [List.map_congr_left hsame, List.map_id']
  rw [handleClient_requests, handleClient_requests, List.nil_append, List.nil_append, htext,
    htext]

/-- **Segmentation, exactly.**  All cuttings of a stream give the same requests if
and only if it has one byte at most: of two bytes, the network may deliver both
in one chunk or each in its own. -/
theorem segmentation_independent_iff (stream : Bytes) :
    SegmentationIndependent stream ↔ stream.length ≤ 1 := by
  constructor
  · intro hindependent
    match stream with
    | [] => simp
    | [b] => simp
    | a :: b :: rest =>
        have hsame := hindependent (.bytewise (a :: b :: rest))
          (.cons [a, b] (by simp) (by simp) (.bytewise rest)) (fun _ => []) []
        rw [handleClient_requests, handleClient_requests] at hsame
        have hcount := congrArg List.length hsame
        simp [Cutting.bytewise, Cutting.cons] at hcount
  · intro hlength first second answer buffer
    rw [handleClient_requests, handleClient_requests, first.chunks_of_length_le_one hlength,
      second.chunks_of_length_le_one hlength]

/-- A request for the version, delivered whole and in two pieces. -/
theorem requests_differ_on_split_command :
    ¬ SegmentationIndependent (text "\x7b\"command\":\"get_app_version\"\x7d") := by
  intro hindependent
  let whole : Cutting (text "\x7b\"command\":\"get_app_version\"\x7d") :=
    ⟨[text "\x7b\"command\":\"get_app_version\"\x7d"], by decide, by decide, by decide⟩
  let split : Cutting (text "\x7b\"command\":\"get_app_version\"\x7d") :=
    ⟨[text "\x7b\"command\":", text "\"get_app_version\"\x7d"], by decide, by decide, by decide⟩
  have hsame := hindependent whole split (fun _ => []) []
  revert hsame
  decide

end TcpBridge
