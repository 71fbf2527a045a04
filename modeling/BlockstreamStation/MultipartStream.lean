import BlockstreamStation.CText
import BlockstreamStation.RingQueue

/-!
# The stream under the multipart parser

`mpStream` of `cgic.c` lets its readers put bytes back.  They go into a ring of
1024 cells and are read before anything else, but the ring is a queue: what is
put back while other bytes are waiting comes behind them.  `mpRead` refuses to go
past the declared content length.

`Stands` says where a stream stands: what is waiting in the ring, and what is left
of the input up to the content length.  `mpRead_of_stands` and
`mpPutBack_of_stands` are the specifications of the two operations; every proof
about the parser goes through them.
-/

namespace Multipart

open CText RingQueue

/-- What the C code does where its behaviour is not defined. -/
inductive Fault
  | negativeRead
  | overrun
  | nullStore
  | overflow
  | doubleFree
deriving DecidableEq, Repr

/-- `mpStream`, with the rest of `cgiIn` behind it.  The ring is `putback` with
`readPos` and `writePos`. -/
structure MpStream where
  putback : RingBuffer UInt8
  offset : Int
  cgiIn : Bytes

def putbackSize : Nat := 1024

/-- The stream after its `memset`. -/
def freshStream (cgiIn : Bytes) : MpStream where
  putback := ⟨List.replicate putbackSize 0, 0, 0⟩
  offset := 0
  cgiIn := cgiIn

/-- `mpRead`.  The bytes it stores into the buffer, or `none` for `EOF`.  `fread`
returns no negative number, but it takes a negative length for an enormous one. -/
def mpRead (cgiContentLength : Int) (mpp : MpStream) (ilen : Nat) :
    Except Fault (Option Bytes × MpStream) :=
  let len : Int :=
    if cgiContentLength - mpp.offset < ilen then cgiContentLength - mpp.offset else ilen
  if len < 0 then .error .negativeRead
  else
    let (got, putback) := mpp.putback.popUpTo len.toNat
    let missing := len.toNat - got.length
    if missing ≠ 0 then
      let fgot := mpp.cgiIn.take missing
      .ok (some (got ++ fgot),
        ⟨putback, mpp.offset + (got.length + fgot.length), mpp.cgiIn.drop missing⟩)
    else if got ≠ [] then .ok (some got, ⟨putback, mpp.offset + got.length, mpp.cgiIn⟩)
    else if ilen ≠ 0 then .ok (none, ⟨putback, mpp.offset, mpp.cgiIn⟩)
    else .ok (some [], ⟨putback, mpp.offset, mpp.cgiIn⟩)

/-- `mpRead(mpp, d, 1)`: the byte, if the call got one. -/
def mpReadByte (cgiContentLength : Int) (mpp : MpStream) : Except Fault (Option UInt8 × MpStream) :=
  (mpRead cgiContentLength mpp 1).map fun (got, mpp) =>
    (match got with
      | some [d] => some d
      | _ => none, mpp)

/-- `mpPutBack`. -/
def mpPutBack (mpp : MpStream) (data : Bytes) : MpStream where
  putback := mpp.putback.pushAll data
  offset := mpp.offset - data.length
  cgiIn := mpp.cgiIn

/-- How far the content length lets the stream go. -/
def room (cgiContentLength : Int) (mpp : MpStream) : Nat := (cgiContentLength - mpp.offset).toNat

/-- What is read is gone from the room. -/
theorem room_of_mpRead {cgiContentLength : Int} {mpp mpp' : MpStream} {len : Nat}
    {got : Option Bytes} (h : mpRead cgiContentLength mpp len = .ok (got, mpp')) :
    room cgiContentLength mpp' + (got.getD []).length = room cgiContentLength mpp := by
  rw [mpRead] at h
  generalize hlen : (if cgiContentLength - mpp.offset < len then cgiContentLength - mpp.offset
    else (len : Int)) = l at h
  have hle : l ≤ cgiContentLength - mpp.offset := by
    rw [← hlen]
    split <;> omega
  have hpopped := length_popUpTo_le l.toNat mpp.putback
  unfold room
  split at h
  · cases h
  · dsimp only at h
    split at h
    · cases h
      have htaken :=
        List.length_take_le (l.toNat - (mpp.putback.popUpTo l.toNat).1.length) mpp.cgiIn
      simp only [Option.getD_some, List.length_append]
      omega
    · split at h
      · cases h
        simp only [Option.getD_some]
        omega
      · split at h <;> cases h <;> rfl

/-- A byte that is read was counted. -/
theorem room_of_mpReadByte {cgiContentLength : Int} {mpp mpp' : MpStream} {byte : Option UInt8}
    (h : mpReadByte cgiContentLength mpp = .ok (byte, mpp')) :
    room cgiContentLength mpp' + byte.toList.length ≤ room cgiContentLength mpp := by
  rw [mpReadByte] at h
  cases hread : mpRead cgiContentLength mpp 1 with
  | error fault =>
      rw [hread] at h
      cases h
  | ok result =>
      obtain ⟨got, mpp''⟩ := result
      rw [hread] at h
      obtain ⟨rfl, rfl⟩ := Prod.mk.inj (Except.ok.inj h)
      have hroom := room_of_mpRead hread
      split
      · exact hroom.le
      · simp only [Option.toList_none, List.length_nil]
        omega

/-- Bytes that are put back count again. -/
theorem room_mpPutBack_le (cgiContentLength : Int) (mpp : MpStream) (data : Bytes) :
    room cgiContentLength (mpPutBack mpp data) ≤ room cgiContentLength mpp + data.length := by
  simp only [room, mpPutBack]
  omega

/-! ## Where a stream stands -/

/-- After `taken` bytes of the input: `pending` waits in the ring, and `rest` is
what is left up to the content length. -/
structure StandsAt (input : Bytes) (length taken : Nat) (mpp : MpStream)
    (pending rest : Bytes) : Prop where
  holds : mpp.putback.Holds pending
  size : mpp.putback.cells.length = putbackSize
  taken_le : taken ≤ length
  offset_eq : mpp.offset = taken - pending.length
  cgiIn_eq : mpp.cgiIn = input.drop taken
  rest_eq : rest = (input.take length).drop taken

/-- A stream over an input, of which no more than `length` bytes are taken. -/
def Stands (input : Bytes) (length : Nat) (mpp : MpStream) (pending rest : Bytes) : Prop :=
  ∃ taken, StandsAt input length taken mpp pending rest

section Stands

variable {input pending rest : Bytes} {length : Nat} {mpp : MpStream}

/-- A new stream stands at its beginning, with the content length before it. -/
theorem stands_fresh (input : Bytes) (length : Nat) :
    Stands input length (freshStream input) [] (input.take length) := by
  refine ⟨0, holds_fresh (List.cons_ne_nil 0 (List.replicate 1023 0)), List.length_replicate,
    Nat.zero_le _, rfl, ?_, ?_⟩
  · rw [List.drop_zero]
    rfl
  · rw [List.drop_zero]

/-- No more can be dropped than there is. -/
theorem drop_min_length (m : Nat) (bytes : Bytes) :
    bytes.drop (min m bytes.length) = bytes.drop m := by
  rcases Nat.le_total m bytes.length with h | h
  · rw [Nat.min_eq_left h]
  · rw [Nat.min_eq_right h, List.drop_length, List.drop_eq_nil_of_le h]

/-- The bytes that the content length still allows. -/
theorem StandsAt.rest_eq_take {taken k : Nat} (h : StandsAt input length taken mpp pending rest)
    (hk : length = taken + k) : rest = mpp.cgiIn.take k := by
  rw [h.rest_eq, h.cgiIn_eq, hk, List.drop_take, Nat.add_sub_cancel_left]

/-- What waits and what is left is within the room. -/
theorem Stands.length_le_room (h : Stands input length mpp pending rest) :
    (pending ++ rest).length ≤ room length mpp := by
  obtain ⟨taken, hstands⟩ := h
  have hle := hstands.taken_le
  rw [room, hstands.offset_eq, hstands.rest_eq, List.length_append, List.length_drop,
    List.length_take]
  omega

/-- Bytes from the ring alone. -/
theorem StandsAt.popped {taken n : Nat} (h : StandsAt input length taken mpp pending rest)
    (hn : n ≤ pending.length) :
    StandsAt input length taken ⟨(mpp.putback.popUpTo n).2, mpp.offset + n, mpp.cgiIn⟩
      (pending.drop n) rest where
  holds := (popUpTo_of_holds n h.holds).2.1
  size := (popUpTo_of_holds n h.holds).2.2.trans h.size
  taken_le := h.taken_le
  offset_eq := by
    simp only [h.offset_eq, List.length_drop]
    omega
  cgiIn_eq := h.cgiIn_eq
  rest_eq := h.rest_eq

/-- All that waits in the ring, and `m` bytes of the input. -/
theorem StandsAt.fetched {taken n m : Nat} (h : StandsAt input length taken mpp pending rest)
    (hn : pending.length ≤ n) (hm : taken + m ≤ length) :
    StandsAt input length (taken + (mpp.cgiIn.take m).length)
      ⟨(mpp.putback.popUpTo n).2, mpp.offset + (pending.length + (mpp.cgiIn.take m).length),
        mpp.cgiIn.drop m⟩ [] (rest.drop m) where
  holds := by
    have hpopped := (popUpTo_of_holds n h.holds).2.1
    rwa [List.drop_eq_nil_of_le hn] at hpopped
  size := (popUpTo_of_holds n h.holds).2.2.trans h.size
  taken_le := by
    have hle := List.length_take_le m mpp.cgiIn
    omega
  offset_eq := by
    simp only [h.offset_eq, List.length_nil]
    omega
  cgiIn_eq := by
    rw [List.length_take, ← List.drop_drop, ← h.cgiIn_eq, drop_min_length]
  rest_eq := by
    obtain ⟨k, hk⟩ : ∃ k, length = taken + k := ⟨length - taken, by omega⟩
    have hrest := h.rest_eq_take hk
    rw [← List.drop_drop, ← h.rest_eq, ← drop_min_length m rest, hrest]
    simp only [List.length_take]
    congr 1
    omega

/-- What is read is the front of what waits and what is left; the ring goes
first. -/
theorem mpRead_of_stands (h : Stands input length mpp pending rest) {len : Nat} (hlen : 0 < len) :
    ∃ got mpp', mpRead length mpp len = .ok (got, mpp') ∧
      got.getD [] = (pending ++ rest).take len ∧
      Stands input length mpp' (pending.drop len) (rest.drop (len - pending.length)) := by
  obtain ⟨taken, hstands⟩ := h
  obtain ⟨k, hk⟩ : ∃ k, length = taken + k := ⟨length - taken, by have := hstands.taken_le; omega⟩
  have hroom : (length : Int) - mpp.offset = (pending.length + k : Nat) := by
    rw [hstands.offset_eq, hk]
    push_cast
    omega
  have hwant : (if (length : Int) - mpp.offset < len then (length : Int) - mpp.offset else len) =
      (min (pending.length + k) len : Nat) := by
    rw [hroom]
    split <;> omega
  have hrest := hstands.rest_eq_take hk
  rw [mpRead]
  simp only [hwant, Int.toNat_natCast]
  rw [if_neg (by omega)]
  generalize hn : min (pending.length + k) len = n
  obtain ⟨hgot, -, -⟩ := popUpTo_of_holds n hstands.holds
  simp only [hgot, List.length_take]
  by_cases hring : n ≤ pending.length
  · have hpopped := hstands.popped hring
    have hsame : pending.take n = (pending ++ rest).take len ∧ pending.drop n = pending.drop len ∧
        rest.drop (len - pending.length) = rest := by
      by_cases hle : len ≤ pending.length
      · have hlen : n = len := by omega
        simp [hlen, List.take_append_of_le_length hle, Nat.sub_eq_zero_of_le hle]
      · -- the content length ends with what waits
        have hzero : k = 0 := by omega
        have hall : n = pending.length := by omega
        rw [hzero, List.take_zero] at hrest
        rw [hall, hrest, List.append_nil, List.take_length, List.take_of_length_le (by omega),
          List.drop_length, List.drop_eq_nil_of_le (by omega), List.drop_nil]
        exact ⟨rfl, rfl, rfl⟩
    rw [if_neg (by omega), ← hsame.1, ← hsame.2.1, hsame.2.2]
    by_cases hnone : pending.take n = []
    · have hzero : n = 0 := by
        have hlength := congrArg List.length hnone
        rw [List.length_take, List.length_nil] at hlength
        omega
      rw [hzero, Nat.cast_zero, Int.add_zero] at hpopped
      rw [if_neg (not_not.mpr hnone), if_pos (by omega), hnone, hzero]
      exact ⟨none, _, rfl, rfl, taken, hpopped⟩
    · have hlength : ((min n pending.length : Nat) : Int) = n := by omega
      rw [if_pos hnone, hlength]
      exact ⟨_, _, rfl, rfl, taken, hpopped⟩
  · have hmissing : n - min n pending.length = min k (len - pending.length) := by omega
    have hall : pending.take n = pending := List.take_of_length_le (by omega)
    have hfetched := hstands.fetched (n := n) (m := min k (len - pending.length)) (by omega)
      (by omega)
    have htake : mpp.cgiIn.take (min k (len - pending.length)) =
        rest.take (len - pending.length) := by
      rw [hrest, List.take_take, Nat.min_comm]
    have hdrop : rest.drop (min k (len - pending.length)) = rest.drop (len - pending.length) := by
      have hle : rest.length ≤ k := hrest ▸ List.length_take_le k mpp.cgiIn
      rw [← drop_min_length, ← drop_min_length (len - pending.length)]
      congr 1
      omega
    rw [if_pos (by omega), hmissing, hall, Nat.min_eq_right (show pending.length ≤ n by omega)]
    rw [hdrop, List.length_take] at hfetched
    rw [List.drop_eq_nil_of_le (show pending.length ≤ len by omega), List.take_append,
      List.take_of_length_le (show pending.length ≤ len by omega), ← htake]
    exact ⟨_, _, rfl, rfl, _, hfetched⟩

/-- One byte, when there is one. -/
theorem mpReadByte_of_stands (h : Stands input length mpp pending rest) {d : UInt8}
    {behind : Bytes} (hnext : pending ++ rest = d :: behind) :
    ∃ mpp', mpReadByte length mpp = .ok (some d, mpp') ∧
      Stands input length mpp' (pending.drop 1) (rest.drop (1 - pending.length)) := by
  obtain ⟨got, mpp', hread, hgot, hstands⟩ := mpRead_of_stands h Nat.one_pos
  rw [hnext, List.take_succ_cons, List.take_zero] at hgot
  obtain rfl : got = some [d] := by
    cases got with
    | none => cases hgot
    | some got => exact congrArg some hgot
  exact ⟨mpp', by rw [mpReadByte, hread]; rfl, hstands⟩

/-- At the end there is none. -/
theorem mpReadByte_of_end (h : Stands input length mpp [] []) :
    ∃ mpp', mpReadByte length mpp = .ok (none, mpp') ∧ Stands input length mpp' [] [] := by
  obtain ⟨got, mpp', hread, hgot, hstands⟩ := mpRead_of_stands h Nat.one_pos
  refine ⟨mpp', ?_, hstands⟩
  rw [mpReadByte, hread]
  match got, hgot with
  | none, _ => rfl
  | some [], _ => rfl

/-- Reading a byte takes it from the front of the stream. -/
theorem drop_pending {d : UInt8} {behind : Bytes} (hnext : pending ++ rest = d :: behind) :
    pending.drop 1 ++ rest.drop (1 - pending.length) = behind := by
  have hdrop := congrArg (List.drop 1) hnext
  rwa [List.drop_append, List.drop_succ_cons, List.drop_zero] at hdrop

/-- What waits in the ring leaves a cell of it free. -/
theorem Stands.length_pending_lt (h : Stands input length mpp pending rest) :
    pending.length < putbackSize := by
  obtain ⟨taken, hstands⟩ := h
  exact hstands.size ▸ hstands.holds.length_lt

/-- What is put back waits behind what waits already. -/
theorem mpPutBack_of_stands (h : Stands input length mpp pending rest) (data : Bytes)
    (hroom : pending.length + data.length < putbackSize) :
    Stands input length (mpPutBack mpp data) (pending ++ data) rest := by
  obtain ⟨taken, hstands⟩ := h
  refine ⟨taken, holds_pushAll data hstands.holds (hstands.size ▸ hroom),
    (length_cells_pushAll data _).trans hstands.size, hstands.taken_le, ?_, hstands.cgiIn_eq,
    hstands.rest_eq⟩
  simp only [mpPutBack, hstands.offset_eq, List.length_append]
  omega

end Stands

end Multipart
