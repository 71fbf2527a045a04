import BlockstreamStation.Buffers
import BlockstreamStation.CText

/-!
# The output of a command

`system_command` of `server/cgi-bin/general.h` reads what a command prints in
chunks of at most 256 bytes.  It gathers them in a block that is doubled, at most
once for a chunk, when the chunk would leave no byte of it free, and copies the
block into the buffer of its caller.

The block is large enough: it has 256 bytes or more and is never full, so doubling
it once makes room for a chunk (`Gathered`, kept by `gatherChunk_gathered`), until
its size no longer fits `size_t` (`gatherChunk_overflow`).  The copy is another
matter.  No terminator is written behind it, and what the buffer held there before
decides where the string ends (`stringAfter_eq`).
-/

namespace CgiBin

open CText Buffers

/-! ## The function -/

/-- The heap of the program: the width of `size_t`, whose maximum is at least
65535, and what a block of a size holds at an index before it is written. -/
structure Heap where
  sizeBits : Nat
  wide : 16 ≤ sizeBits
  junk : Nat → Nat → UInt8

namespace Heap

/-- The result of `size_t` arithmetic. -/
def size (heap : Heap) (n : Nat) : Nat := n % 2 ^ heap.sizeBits

def malloc (heap : Heap) (size : Nat) : Bytes := (List.range size).map (heap.junk size)

/-- The block moved to one of another size. -/
def realloc (heap : Heap) (block : Bytes) (size : Nat) : Bytes :=
  block.take size ++ (heap.malloc size).drop block.length

end Heap

/-- The local variables of the loop. -/
structure Gathering where
  comalloc : Nat
  comlen : Nat
  comout : Bytes

/-- The variables in front of the loop. -/
def startGathering (heap : Heap) : Gathering := ⟨256, 0, heap.malloc 256⟩

/-- The `if` at the beginning of a round. -/
def grow (heap : Heap) (s : Gathering) (chread : Nat) : Gathering :=
  if s.comalloc ≤ heap.size (s.comlen + chread) then
    let comalloc := heap.size (s.comalloc * 2)
    { s with comalloc := comalloc, comout := heap.realloc s.comout comalloc }
  else
    s

/-- A round of the loop.  `none` is a `memmove` that leaves the block. -/
def gatherChunk (heap : Heap) (s : Gathering) (chunk : Bytes) : Option Gathering := do
  let s := grow heap s chunk.length
  let comout ← writeAll s.comout s.comlen chunk
  some { s with comlen := heap.size (s.comlen + chunk.length), comout := comout }

/-- The loop, on what `fread` returns before it returns 0. -/
def gatherChunks (heap : Heap) : Gathering → List Bytes → Option Gathering
  | s, [] => some s
  | s, chunk :: rest => do
      let s ← gatherChunk heap s chunk
      gatherChunks heap s rest

/-- `system_command`: whether `reply` is returned, and the buffer afterwards.
Without a pipe the function returns `NULL`. -/
def systemCommand (heap : Heap) (pipe : Option (List Bytes)) (reply : Bytes) :
    Option (Bool × Bytes) :=
  match pipe with
  | none => some (false, reply)
  | some chunks => do
      let s ← gatherChunks heap (startGathering heap) chunks
      let reply ← writeAll reply 0 (s.comout.take s.comlen)
      some (true, reply)

/-- What `fread` returns until the end of the output, in its order. -/
structure Reads where
  chunks : List Bytes
  sizes : ∀ chunk ∈ chunks, 1 ≤ chunk.length ∧ chunk.length ≤ 256

def Reads.output (r : Reads) : Bytes := r.chunks.flatten

/-! ## The block -/

@[simp] theorem Heap.length_malloc (heap : Heap) (size : Nat) :
    (heap.malloc size).length = size := by
  simp [Heap.malloc]

theorem Heap.length_realloc (heap : Heap) {block : Bytes} {size : Nat}
    (h : block.length ≤ size) : (heap.realloc block size).length = size := by
  simp only [Heap.realloc, List.length_append, List.length_take, List.length_drop,
    Heap.length_malloc]
  omega

/-- A larger block begins with the bytes of the smaller one. -/
theorem Heap.take_realloc (heap : Heap) {block : Bytes} {n size : Nat} (hn : n ≤ block.length)
    (h : block.length ≤ size) : (heap.realloc block size).take n = block.take n := by
  rw [Heap.realloc, List.take_of_length_le h, List.take_append_of_le_length hn]

/-- The block holds the output read so far and is not full.  Its size, doubled from
256 on, is a power of two. -/
structure Gathered (heap : Heap) (s : Gathering) (output : Bytes) : Prop where
  power : ∃ k < heap.sizeBits, s.comalloc = 2 ^ k
  large : 256 ≤ s.comalloc
  free : s.comlen < s.comalloc
  block : s.comout.length = s.comalloc
  length : s.comlen = output.length
  holds : s.comout.take s.comlen = output

theorem startGathering_gathered (heap : Heap) : Gathered heap (startGathering heap) [] where
  power := ⟨8, Nat.lt_of_lt_of_le (by decide) heap.wide, rfl⟩
  large := Nat.le_refl 256
  free := show 0 < 256 by decide
  block := heap.length_malloc 256
  length := rfl
  holds := rfl

section Round

variable {heap : Heap} {s : Gathering} {output chunk : Bytes}

/-- The block never has more than half of the bytes that `size_t` counts. -/
theorem Gathered.half (h : Gathered heap s output) : 2 * s.comalloc ≤ 2 ^ heap.sizeBits := by
  obtain ⟨k, hk, hpower⟩ := h.power
  have hle : 2 ^ (k + 1) ≤ 2 ^ heap.sizeBits := Nat.pow_le_pow_right (by decide) hk
  rw [Nat.pow_succ] at hle
  omega

/-- The sum that is compared with the size of the block does not wrap around. -/
theorem Gathered.size_sum (h : Gathered heap s output) (hchunk : chunk.length ≤ 256) :
    heap.size (s.comlen + chunk.length) = s.comlen + chunk.length := by
  have hhalf := h.half
  have hlarge := h.large
  have hfree := h.free
  exact Nat.mod_eq_of_lt (by omega)

/-- One doubling makes room for a chunk, and keeps the output. -/
theorem Gathered.grow (h : Gathered heap s output) (hchunk : chunk.length ≤ 256)
    (hsize : 2 * (output.length + chunk.length) < 2 ^ heap.sizeBits) :
    Gathered heap (grow heap s chunk.length) output ∧
      s.comlen + chunk.length < (CgiBin.grow heap s chunk.length).comalloc := by
  have hlength := h.length
  have hlarge := h.large
  have hfree := h.free
  by_cases hfull : s.comalloc ≤ s.comlen + chunk.length
  · have hdouble : heap.size (s.comalloc * 2) = s.comalloc * 2 := Nat.mod_eq_of_lt (by omega)
    have hgrow : CgiBin.grow heap s chunk.length =
        ⟨s.comalloc * 2, s.comlen, heap.realloc s.comout (s.comalloc * 2)⟩ := by
      rw [CgiBin.grow, h.size_sum hchunk, if_pos hfull, hdouble]
    have hpower : ∃ k < heap.sizeBits, s.comalloc * 2 = 2 ^ k := by
      obtain ⟨k, -, hk⟩ := h.power
      refine ⟨k + 1, (Nat.pow_lt_pow_iff_right (show 1 < 2 by decide)).mp ?_, ?_⟩
      · rw [Nat.pow_succ, ← hk]
        omega
      · rw [hk, Nat.pow_succ]
    have hblock : s.comout.length ≤ s.comalloc * 2 := by
      rw [h.block]
      omega
    have hholds : (heap.realloc s.comout (s.comalloc * 2)).take s.comlen = output := by
      rw [heap.take_realloc (by rw [h.block]; omega) hblock, h.holds]
    rw [hgrow]
    dsimp only
    exact ⟨⟨hpower, by dsimp only; omega, by dsimp only; omega, heap.length_realloc hblock, hlength,
      hholds⟩, by omega⟩
  · rw [CgiBin.grow, h.size_sum hchunk, if_neg hfull]
    exact ⟨h, by omega⟩

/-- A round adds its chunk. -/
theorem gatherChunk_gathered (h : Gathered heap s output) (hchunk : chunk.length ≤ 256)
    (hsize : 2 * (output.length + chunk.length) < 2 ^ heap.sizeBits) :
    ∃ s', gatherChunk heap s chunk = some s' ∧ Gathered heap s' (output ++ chunk) := by
  obtain ⟨hgrown, hroom⟩ := h.grow hchunk hsize
  have hlength := hgrown.length
  have hblock := hgrown.block
  rw [h.length] at hroom
  have hfits : (grow heap s chunk.length).comlen + chunk.length ≤
      (grow heap s chunk.length).comout.length := by omega
  have hround : gatherChunk heap s chunk =
      some ⟨(grow heap s chunk.length).comalloc, output.length + chunk.length, output ++ chunk ++
        (grow heap s chunk.length).comout.drop (output.length + chunk.length)⟩ := by
    rw [gatherChunk, writeAll_eq chunk _ _ hfits, hgrown.holds, hlength]
    have hsum : heap.size (output.length + chunk.length) = output.length + chunk.length :=
      Nat.mod_eq_of_lt (by omega)
    rw [Option.bind_eq_bind, Option.bind_some, hsum]
  refine ⟨_, hround, hgrown.power, hgrown.large, hroom, ?_, List.length_append.symm, ?_⟩
  · simp only [List.length_append, List.length_drop]
    omega
  · exact List.take_left' List.length_append

/-- A chunk that reaches half of `size_t` doubles the block to nothing. -/
theorem gatherChunk_overflow (h : Gathered heap s output) (hpos : 1 ≤ chunk.length)
    (hchunk : chunk.length ≤ 256)
    (hsize : 2 ^ heap.sizeBits ≤ 2 * (output.length + chunk.length)) :
    gatherChunk heap s chunk = none := by
  have hlength := h.length
  have hlarge := h.large
  have hfree := h.free
  have hhalf := h.half
  have hdouble : heap.size (s.comalloc * 2) = 0 := by
    obtain ⟨k, hk, hpower⟩ := h.power
    have hlast : k + 1 = heap.sizeBits := by
      by_contra hne
      have hle : 2 ^ (k + 1 + 1) ≤ 2 ^ heap.sizeBits :=
        Nat.pow_le_pow_right (by decide) (by omega)
      rw [Nat.pow_succ, Nat.pow_succ, ← hpower] at hle
      omega
    rw [Heap.size, hpower, ← Nat.pow_succ, Nat.succ_eq_add_one, hlast, Nat.mod_self]
  have hgrow : grow heap s chunk.length = ⟨0, s.comlen, heap.realloc s.comout 0⟩ := by
    rw [grow, h.size_sum hchunk, if_pos (by omega), hdouble]
  have hempty : heap.realloc s.comout 0 = [] := by simp [Heap.realloc, Heap.malloc]
  obtain ⟨b, rest, rfl⟩ := List.exists_cons_of_length_pos hpos
  rw [gatherChunk, hgrow, hempty]
  rfl

end Round

/-- The rounds add their chunks one behind the other. -/
theorem gatherChunks_gathered {heap : Heap} (chunks : List Bytes) :
    ∀ {s : Gathering} {output : Bytes}, Gathered heap s output →
      (∀ chunk ∈ chunks, chunk.length ≤ 256) →
      2 * (output ++ chunks.flatten).length < 2 ^ heap.sizeBits →
      ∃ s', gatherChunks heap s chunks = some s' ∧
        Gathered heap s' (output ++ chunks.flatten) := by
  induction chunks with
  | nil =>
      intro s output h _ _
      exact ⟨s, rfl, by simpa using h⟩
  | cons chunk rest ih =>
      intro s output h hchunks hsize
      rw [List.flatten_cons, ← List.append_assoc] at hsize ⊢
      have hround : 2 * (output.length + chunk.length) < 2 ^ heap.sizeBits := by
        rw [List.length_append, List.length_append] at hsize
        omega
      obtain ⟨s₁, hs₁, hgathered⟩ :=
        gatherChunk_gathered h (hchunks chunk List.mem_cons_self) hround
      obtain ⟨s', hs', hall⟩ :=
        ih hgathered (fun c hc => hchunks c (List.mem_cons_of_mem _ hc)) hsize
      exact ⟨s', by rw [gatherChunks, hs₁]; exact hs', hall⟩

/-- From the start, any part of the output below half of `size_t`. -/
theorem gatherChunks_start (heap : Heap) {chunks : List Bytes}
    (hchunks : ∀ chunk ∈ chunks, chunk.length ≤ 256)
    (hsize : 2 * chunks.flatten.length < 2 ^ heap.sizeBits) :
    ∃ s, gatherChunks heap (startGathering heap) chunks = some s ∧
      Gathered heap s chunks.flatten :=
  gatherChunks_gathered chunks (startGathering_gathered heap) hchunks hsize

/-- An output that reaches half of `size_t` leaves the block on the way. -/
theorem gatherChunks_overflow {heap : Heap} (chunks : List Bytes) :
    ∀ {s : Gathering} {output : Bytes}, Gathered heap s output →
      (∀ chunk ∈ chunks, 1 ≤ chunk.length ∧ chunk.length ≤ 256) →
      2 ^ heap.sizeBits ≤ 2 * (output ++ chunks.flatten).length →
      gatherChunks heap s chunks = none := by
  induction chunks with
  | nil =>
      intro s output h _ hsize
      have hhalf := h.half
      have hfree := h.free
      rw [h.length] at hfree
      rw [List.flatten_nil, List.append_nil] at hsize
      omega
  | cons chunk rest ih =>
      intro s output h hchunks hsize
      obtain ⟨hpos, hchunk⟩ := hchunks chunk List.mem_cons_self
      rw [List.flatten_cons, ← List.append_assoc] at hsize
      by_cases hround : 2 * (output.length + chunk.length) < 2 ^ heap.sizeBits
      · obtain ⟨s₁, hs₁, hgathered⟩ := gatherChunk_gathered h hchunk hround
        have hrest := ih hgathered (fun c hc => hchunks c (List.mem_cons_of_mem _ hc)) hsize
        rw [gatherChunks, hs₁]
        exact hrest
      · rw [gatherChunks, gatherChunk_overflow h hpos hchunk (by omega)]
        rfl

/-- **The block suffices.**  Whatever the chunks, each is moved into the block
after at most one doubling, and after the loop the block begins with the chunks in
their order.  The sizes do not reach half of what `size_t` holds. -/
theorem growth_suffices (heap : Heap) (r : Reads)
    (hsize : 2 * r.output.length < 2 ^ heap.sizeBits) :
    (∀ before chunk after, r.chunks = before ++ chunk :: after →
      ∃ s, gatherChunks heap (startGathering heap) before = some s ∧
        (grow heap s chunk.length).comlen = s.comlen ∧
        s.comlen + chunk.length ≤ (grow heap s chunk.length).comalloc ∧
        (grow heap s chunk.length).comout.length = (grow heap s chunk.length).comalloc) ∧
    ∃ s, gatherChunks heap (startGathering heap) r.chunks = some s ∧
      s.comlen = r.output.length ∧ s.comout.take s.comlen = r.output := by
  have hchunks : ∀ chunk ∈ r.chunks, chunk.length ≤ 256 := fun c hc => (r.sizes c hc).2
  refine ⟨fun before chunk after hsplit => ?_, ?_⟩
  · have houtput : r.output.length =
        before.flatten.length + (chunk.length + after.flatten.length) := by
      rw [Reads.output, hsplit, List.flatten_append, List.flatten_cons, List.length_append,
        List.length_append]
    obtain ⟨s, hs, hgathered⟩ := gatherChunks_start heap
      (fun c hc => hchunks c (by rw [hsplit]; exact List.mem_append_left _ hc))
      (show 2 * before.flatten.length < 2 ^ heap.sizeBits by omega)
    obtain ⟨hgrown, hroom⟩ := hgathered.grow (hchunks chunk (by rw [hsplit]; simp))
      (show 2 * (before.flatten.length + chunk.length) < 2 ^ heap.sizeBits by omega)
    exact ⟨s, hs, hgrown.length.trans hgathered.length.symm, Nat.le_of_lt hroom, hgrown.block⟩
  · obtain ⟨s, hs, hgathered⟩ := gatherChunks_start heap hchunks hsize
    exact ⟨s, hs, hgathered.length, hgathered.holds⟩

/-- A heap with sizes of 64 bits. -/
def zeroHeap : Heap := ⟨64, by decide, fun _ _ => 0⟩

/-- Two chunks, the second of which does not fit the first block. -/
def twoChunks : Reads := ⟨[List.replicate 200 65, List.replicate 100 66], by decide +kernel⟩

theorem growth_suffices_for_two :
    2 * twoChunks.output.length < 2 ^ zeroHeap.sizeBits ∧
      ∃ s, gatherChunks zeroHeap (startGathering zeroHeap) twoChunks.chunks = some s ∧
        s.comlen = twoChunks.output.length ∧ s.comout.take s.comlen = twoChunks.output :=
  ⟨by decide +kernel, (growth_suffices zeroHeap twoChunks (by decide +kernel)).2⟩

/-! ## The string in the caller's buffer -/

/-- The string that the caller finds in its buffer. -/
def stringAfter (heap : Heap) (r : Reads) (reply : Bytes) : Option Bytes :=
  (systemCommand heap (some r.chunks) reply).map fun result => cstr result.2

section Reply

variable {heap : Heap} {r : Reads} {reply : Bytes}

/-- The output, and then whatever the buffer held behind it. -/
theorem stringAfter_eq (hsize : 2 * r.output.length < 2 ^ heap.sizeBits) (hnul : 0 ∉ r.output)
    (hroom : r.output.length < reply.length) :
    stringAfter heap r reply = some (r.output ++ cstr (reply.drop r.output.length)) := by
  obtain ⟨s, hs, hgathered⟩ := gatherChunks_start heap
    (fun c hc => (r.sizes c hc).2) hsize
  have hholds : s.comout.take s.comlen = r.output := hgathered.holds
  rw [stringAfter, systemCommand, hs, Option.bind_eq_bind, Option.bind_some, hholds,
    writeAll_zero (Nat.le_of_lt hroom), Option.bind_eq_bind, Option.bind_some, Option.map_some,
    cstr_append hnul]

/-- No string is left when the block is lost. -/
theorem stringAfter_overflow (hsize : 2 ^ heap.sizeBits ≤ 2 * r.output.length) :
    stringAfter heap r reply = none := by
  have hlost := gatherChunks_overflow r.chunks (startGathering_gathered heap) r.sizes hsize
  rw [stringAfter, systemCommand, hlost]
  rfl

end Reply

/-- **The string, exactly.**  The caller finds the output in its buffer if and
only if the block can hold it and the byte behind it was a terminator before the
call; and two calls with the same output leave the same string if and only if the
block can hold it and the two buffers held one string from that byte on. -/
theorem reply_is_output_iff (heap : Heap) (r r' : Reads) (reply reply' : Bytes)
    (hnul : 0 ∉ r.output) (hsame : r'.output = r.output) (hroom : r.output.length < reply.length)
    (hroom' : r.output.length < reply'.length) :
    (stringAfter heap r reply = some r.output ↔
      2 * r.output.length < 2 ^ heap.sizeBits ∧ reply[r.output.length]? = some 0) ∧
    ((∃ string, stringAfter heap r reply = some string ∧
        stringAfter heap r' reply' = some string) ↔
      2 * r.output.length < 2 ^ heap.sizeBits ∧
        cstr (reply.drop r.output.length) = cstr (reply'.drop r.output.length)) := by
  by_cases hsize : 2 * r.output.length < 2 ^ heap.sizeBits
  · have hfirst := stringAfter_eq hsize hnul hroom
    have hsecond : stringAfter heap r' reply' =
        some (r.output ++ cstr (reply'.drop r.output.length)) := by
      rw [← hsame] at hsize hnul hroom' ⊢
      exact stringAfter_eq hsize hnul hroom'
    rw [hfirst, hsecond, ← cstr_drop_eq_nil_iff hroom, and_iff_right hsize, and_iff_right hsize]
    refine ⟨by rw [Option.some.injEq, List.append_right_eq_self], fun h => ?_, fun h => ?_⟩
    · obtain ⟨string, hleft, hright⟩ := h
      exact List.append_cancel_left (Option.some.inj (hleft.trans hright.symm))
    · exact ⟨_, rfl, by rw [h]⟩
  · have hlost : stringAfter heap r reply = none :=
      stringAfter_overflow (Nat.le_of_not_lt hsize)
    simp [hlost, hsize]

/-- A command that prints `ok`. -/
def printsOk : Reads := ⟨[text "ok"], by decide⟩

/-- A buffer of 12 bytes with a string in it. -/
def usedBuffer (previous : String) : Bytes := (text previous).rightpad 12 0

/-- The answer `ok` over a longer one, and over none. -/
theorem reply_keeps_previous :
    stringAfter zeroHeap printsOk (usedBuffer "failed") = some (text "okiled") ∧
      stringAfter zeroHeap printsOk (usedBuffer "failed") ≠ some printsOk.output ∧
      stringAfter zeroHeap printsOk (usedBuffer "failed") ≠
        stringAfter zeroHeap printsOk (usedBuffer "") := by
  decide +kernel

/-- In a buffer of zeros the answer is read back. -/
theorem reply_is_output_in_zeros :
    stringAfter zeroHeap printsOk (usedBuffer "") = some printsOk.output :=
  ((reply_is_output_iff zeroHeap printsOk printsOk (usedBuffer "") (usedBuffer "")
    (by decide) rfl (by decide) (by decide)).1).mpr (by decide)

end CgiBin
