import BlockstreamStation.MultipartStream
import BlockstreamStation.PatternSplit

/-!
# Bodies between boundaries

`afterNextBoundary` of `cgic.c` reads up to the next boundary and stores what
stands before it.  Where a match fails it puts back what it matched but for the
first byte, and the byte that did not match, and begins again.  The ring under the
stream is a queue, so this takes the bytes in their order only when nothing else
is waiting.

Between two bodies that is so: the delimiter begins with a carriage return that
does not come again in it, so a match is never under way while the ring holds
bytes.  `afterNextBoundary_of_stands` says that the body is then what stands before
the first occurrence.  For any other delimiter `afterNextBoundary_safe` still says
that nothing is stored outside a buffer or read behind the content length.

The block for a body grows by doubling, in an `int`.  Below 2 ^ 30 bytes that does
not overflow; but where `realloc` fails, the block is freed twice.
-/

namespace Multipart

open CText RingQueue PatternSplit

def carriageReturn : UInt8 := 13

def hyphen : UInt8 := 45

/-! ## Where a body goes -/

/-- `outf` and `out`: nowhere, into a file, or into a block of `outSpace` bytes. -/
inductive Sink
  | discard
  | file (written : Bytes)
  | memory (out : Bytes) (outSpace : Nat)
deriving DecidableEq, Repr

/-- The largest `int`. -/
def intMax : Nat := 2147483647

/-- Whether `malloc` or `realloc` has a block of so many bytes. -/
abbrev Heap := Nat → Bool

/-- How many bytes the sink was given, the `outLen` of the source. -/
def Sink.outLen : Sink → Nat
  | .discard => 0
  | .file written => written.length
  | .memory out _ => out.length

/-- `BAPPEND`, with the doubling of `RAPPEND`.  Where `realloc` fails, `out` is freed
at `outOfMemory` and, since it keeps its value, at `error` again. -/
def Sink.bappend (heap : Heap) : Sink → UInt8 → Except Fault Sink
  | .discard, _ => .ok .discard
  | .file written, ch =>
      if written.length = intMax then .error .overflow else .ok (.file (written ++ [ch]))
  | .memory out outSpace, ch =>
      if out.length + 1 = outSpace then
        if intMax < outSpace * 2 then .error .overflow
        else if heap (outSpace * 2) then .ok (.memory (out ++ [ch]) (outSpace * 2))
        else .error .doubleFree
      else if out.length < outSpace then .ok (.memory (out ++ [ch]) outSpace)
      else .error .overrun

/-- `out[outLen] = '\0'`.  The `realloc` that gives space back may fail. -/
def Sink.terminate : Sink → Except Fault Sink
  | .memory out outSpace =>
      if out.length < outSpace then .ok (.memory out outSpace) else .error .overrun
  | sink => .ok sink

/-- There is room for the terminator. -/
def Sink.Roomy : Sink → Prop
  | .memory out outSpace => out.length < outSpace
  | _ => True

/-- A sink before and after it was given bytes. -/
inductive Receives : Sink → Bytes → Sink → Prop
  | discard (bytes : Bytes) : Receives .discard bytes .discard
  | file (written bytes : Bytes) : Receives (.file written) bytes (.file (written ++ bytes))
  | memory (out bytes : Bytes) {outSpace outSpace' : Nat}
      (hroomy : (out ++ bytes).length < outSpace') :
      Receives (.memory out outSpace) bytes (.memory (out ++ bytes) outSpace')

/-- Nothing is received. -/
theorem receives_nil {sink : Sink} (h : sink.Roomy) : Receives sink [] sink := by
  cases sink with
  | discard => exact .discard []
  | file written =>
      have hfile := Receives.file written []
      rwa [List.append_nil] at hfile
  | memory out outSpace =>
      have hmemory : Receives (.memory out outSpace) [] (.memory (out ++ []) outSpace) :=
        .memory out [] (by rw [List.append_nil]; exact h)
      rwa [List.append_nil] at hmemory

/-- First a front, then the rest. -/
theorem Receives.trans {sink middle after : Sink} {front rest : Bytes}
    (h : Receives sink front middle) (h' : Receives middle rest after) :
    Receives sink (front ++ rest) after := by
  cases h with
  | discard => cases h'; exact .discard _
  | file written =>
      cases h'
      rw [List.append_assoc]
      exact .file _ _
  | memory out _ _ =>
      cases h' with
      | memory _ _ hroomy =>
          rw [List.append_assoc] at hroomy ⊢
          exact .memory _ _ hroomy

/-- A sink that received bytes has room for the terminator. -/
theorem Receives.roomy {sink after : Sink} {bytes : Bytes} (h : Receives sink bytes after) :
    after.Roomy := by
  cases h with
  | discard => exact trivial
  | file => exact trivial
  | memory _ _ hroomy => exact hroomy

/-- It holds no more than it received. -/
theorem Receives.outLen_le {sink after : Sink} {bytes : Bytes} (h : Receives sink bytes after) :
    after.outLen ≤ sink.outLen + bytes.length := by
  cases h with
  | discard => exact Nat.zero_le _
  | file => exact List.length_append.le
  | memory => exact List.length_append.le

/-- A roomy sink takes another byte and stays roomy, unless the heap has no larger
block for it. -/
theorem bappend_of_roomy (heap : Heap) {sink : Sink} (h : sink.Roomy)
    (hlength : sink.outLen + 1 < 2 ^ 30) (ch : UInt8) :
    (∃ after, sink.bappend heap ch = .ok after ∧ Receives sink [ch] after) ∨
      sink.bappend heap ch = .error .doubleFree ∧ ∃ size, heap size = false := by
  cases sink with
  | discard => exact .inl ⟨_, rfl, .discard _⟩
  | file written =>
      have hlt : written.length + 1 < 2 ^ 30 := hlength
      exact .inl ⟨_, if_neg (by rw [intMax]; omega), .file _ _⟩
  | memory out outSpace =>
      have hlt : out.length < outSpace := h
      have hshort : out.length + 1 < 2 ^ 30 := hlength
      have hone : (out ++ [ch]).length = out.length + 1 := List.length_append
      rw [Sink.bappend]
      by_cases hfull : out.length + 1 = outSpace
      · rw [if_pos hfull, if_neg (by rw [intMax]; omega)]
        cases hheap : heap (outSpace * 2) with
        | true => exact .inl ⟨_, rfl, .memory _ _ (by omega)⟩
        | false => exact .inr ⟨rfl, _, hheap⟩
      · rw [if_neg hfull, if_pos hlt]
        exact .inl ⟨_, rfl, .memory _ _ (by omega)⟩

/-- The terminator is stored. -/
theorem terminate_of_roomy {sink : Sink} (h : sink.Roomy) : sink.terminate = .ok sink := by
  cases sink with
  | discard => rfl
  | file => rfl
  | memory out outSpace => exact if_pos h

/-! ## The loop -/

/-- A false match is put back without its first byte, and so is the byte behind it. -/
theorem room_of_failedMatch (cgiContentLength : Int) (mpp : MpStream) (workingBoundary : Bytes)
    (boffset : Nat) (d : UInt8) :
    room cgiContentLength (mpPutBack (mpPutBack mpp (workingBoundary.take boffset).tail) [d]) ≤
      room cgiContentLength mpp + (boffset - 1) + 1 := by
  have hfirst := room_mpPutBack_le cgiContentLength mpp (workingBoundary.take boffset).tail
  have hsecond := room_mpPutBack_le cgiContentLength
    (mpPutBack mpp (workingBoundary.take boffset).tail) [d]
  simp only [List.length_tail, List.length_take, List.length_singleton] at hfirst hsecond
  omega

/-- The loop of `afterNextBoundary`: `boffset` bytes of the boundary are matched. -/
def boundaryLoop (heap : Heap) (cgiContentLength : Int) (workingBoundary : Bytes) (mpp : MpStream)
    (boffset : Nat) (sink : Sink) : Except Fault (Option Sink × MpStream) :=
  match _hread : mpReadByte cgiContentLength mpp with
  | .error fault => .error fault
  | .ok (none, mpp') => .ok (none, mpp')
  | .ok (some d, mpp') =>
      if workingBoundary[boffset]? = some d then
        if boffset + 1 = workingBoundary.length then .ok (some sink, mpp')
        else boundaryLoop heap cgiContentLength workingBoundary mpp' (boffset + 1) sink
      else if 0 < boffset then
        match sink.bappend heap (workingBoundary.headD 0) with
        | .error fault => .error fault
        | .ok sink =>
            boundaryLoop heap cgiContentLength workingBoundary
              (mpPutBack (mpPutBack mpp' (workingBoundary.take boffset).tail) [d]) 0 sink
      else
        match sink.bappend heap d with
        | .error fault => .error fault
        | .ok sink => boundaryLoop heap cgiContentLength workingBoundary mpp' 0 sink
termination_by (room cgiContentLength mpp + boffset, room cgiContentLength mpp)
decreasing_by
  all_goals
    have hroom : room cgiContentLength mpp' + 1 ≤ room cgiContentLength mpp :=
      room_of_mpReadByte _hread
  · exact Prod.Lex.right' _ (by omega) (by omega)
  · have hback := room_of_failedMatch cgiContentLength mpp' workingBoundary boffset d
    exact Prod.Lex.left _ _ (by omega)
  · exact Prod.Lex.left _ _ (by omega)

/-- A boundary that is found is gone from the room. -/
theorem room_of_boundaryLoop {heap : Heap} {cgiContentLength : Int} {workingBoundary : Bytes}
    {after : MpStream} {filled : Sink} (mpp : MpStream) (boffset : Nat) (sink : Sink)
    (h : boundaryLoop heap cgiContentLength workingBoundary mpp boffset sink =
      .ok (some filled, after)) :
    room cgiContentLength after + workingBoundary.length ≤
      room cgiContentLength mpp + boffset := by
  rw [boundaryLoop] at h
  split at h
  · cases h
  · cases h
  · rename_i d mpp' hread
    have hroom : room cgiContentLength mpp' + 1 ≤ room cgiContentLength mpp :=
      room_of_mpReadByte hread
    have hback := room_of_failedMatch cgiContentLength mpp' workingBoundary boffset d
    split_ifs at h
    · cases h
      omega
    · have hagain := room_of_boundaryLoop mpp' (boffset + 1) sink h
      omega
    · split at h
      · cases h
      · have hagain := room_of_boundaryLoop _ 0 _ h
        omega
    · split at h
      · cases h
      · have hagain := room_of_boundaryLoop mpp' 0 _ h
        omega
termination_by (room cgiContentLength mpp + boffset, room cgiContentLength mpp)
decreasing_by
  · exact Prod.Lex.right' _ (by omega) (by omega)
  · exact Prod.Lex.left _ _ (by omega)
  · exact Prod.Lex.left _ _ (by omega)

/-- The end of `afterNextBoundary`: the newline behind the boundary, or the `--`
that stays in the stream. -/
def readTrailer (cgiContentLength : Int) (mpp : MpStream) (sink : Sink) :
    Except Fault (Option Sink × MpStream) :=
  match mpRead cgiContentLength mpp 2 with
  | .error fault => .error fault
  | .ok (some [d0, d1], mpp) =>
      let mpp :=
        if d0 = carriageReturn ∧ d1 = newline then mpp
        else if d0 = hyphen then mpPutBack mpp [d0, d1]
        else mpp
      sink.terminate.map fun sink => (some sink, mpp)
  | .ok (_, mpp) => .ok (none, mpp)

/-- `workingBoundaryData`. -/
def delimiter (cgiMultipartBoundary : Bytes) : Bytes := text "\r\n--" ++ cgiMultipartBoundary

/-- `afterNextBoundary`.  The sink with the body, or `none` for `cgiParseIO`. -/
def afterNextBoundary (heap : Heap) (cgiContentLength : Int) (cgiMultipartBoundary : Bytes)
    (mpp : MpStream) (sink : Sink) (first : Bool) : Except Fault (Option Sink × MpStream) :=
  let workingBoundaryData := delimiter cgiMultipartBoundary
  if 1024 ≤ workingBoundaryData.length then .error .overrun
  else
    let workingBoundary := if first then workingBoundaryData.drop 2 else workingBoundaryData
    match boundaryLoop heap cgiContentLength workingBoundary mpp 0 sink with
    | .error fault => .error fault
    | .ok (none, mpp) => .ok (none, mpp)
    | .ok (some sink, mpp) => readTrailer cgiContentLength mpp sink

/-- The two bytes behind a boundary are taken. -/
theorem room_of_readTrailer {cgiContentLength : Int} {mpp after : MpStream} {sink filled : Sink}
    (h : readTrailer cgiContentLength mpp sink = .ok (some filled, after)) :
    room cgiContentLength after ≤ room cgiContentLength mpp := by
  rw [readTrailer] at h
  split at h
  · cases h
  · rename_i d0 d1 mpp' hread
    have hroom : room cgiContentLength mpp' + 2 = room cgiContentLength mpp :=
      room_of_mpRead hread
    have hback : room cgiContentLength (mpPutBack mpp' [d0, d1]) ≤ room cgiContentLength mpp' + 2 :=
      room_mpPutBack_le cgiContentLength mpp' [d0, d1]
    cases hterminate : sink.terminate with
    | error fault =>
        rw [hterminate] at h
        cases h
    | ok sink =>
        rw [hterminate] at h
        cases h
        split_ifs <;> omega
  · cases h

/-- A body that is found takes its boundary from the room. -/
theorem room_of_afterNextBoundary {heap : Heap} {cgiContentLength : Int} {boundary : Bytes}
    {mpp after : MpStream} {sink filled : Sink} {first : Bool}
    (h : afterNextBoundary heap cgiContentLength boundary mpp sink first =
      .ok (some filled, after)) :
    room cgiContentLength after < room cgiContentLength mpp := by
  have hlength : (delimiter boundary).length = boundary.length + 4 := rfl
  simp only [afterNextBoundary] at h
  generalize hw : (if first = true then (delimiter boundary).drop 2 else delimiter boundary) = w
    at h
  have hpos : 2 ≤ w.length := by
    rw [← hw]
    split <;> simp only [List.length_drop, hlength] <;> omega
  split at h
  · cases h
  · split at h
    · cases h
    · cases h
    · rename_i found mpp' hloop
      have hroom := room_of_boundaryLoop mpp 0 sink hloop
      have hless := room_of_readTrailer h
      omega

section Loop

variable (heap : Heap) {input pending rest workingBoundary : Bytes} {length boffset : Nat}
  {mpp mpp' : MpStream} {sink : Sink} {d : UInt8}

/-- A round that reads a byte. -/
theorem boundaryLoop_of_byte (hread : mpReadByte length mpp = .ok (some d, mpp')) :
    boundaryLoop heap length workingBoundary mpp boffset sink =
      if workingBoundary[boffset]? = some d then
        if boffset + 1 = workingBoundary.length then .ok (some sink, mpp')
        else boundaryLoop heap length workingBoundary mpp' (boffset + 1) sink
      else if 0 < boffset then
        sink.bappend heap (workingBoundary.headD 0) >>= boundaryLoop heap length workingBoundary
          (mpPutBack (mpPutBack mpp' (workingBoundary.take boffset).tail) [d]) 0
      else sink.bappend heap d >>= boundaryLoop heap length workingBoundary mpp' 0 := by
  rw [boundaryLoop]
  split
  all_goals
    rename_i hsome
    rw [hread] at hsome
    cases hsome
  cases sink.bappend heap (workingBoundary.headD 0) <;> cases sink.bappend heap d <;> rfl

/-- A round at the end of the stream. -/
theorem boundaryLoop_of_end (hread : mpReadByte length mpp = .ok (none, mpp')) :
    boundaryLoop heap length workingBoundary mpp boffset sink = .ok (none, mpp') := by
  rw [boundaryLoop]
  split
  all_goals
    rename_i hsome
    rw [hread] at hsome
    cases hsome
  rfl

/-- **Induction along the loop.**  Every round takes one byte from the front of the
stream; a failed match comes behind what waits in the ring.  The ring holds no more
than it did at the beginning, or the boundary less one byte.  What the sink was
given, what is matched and what is left of the stream are as many bytes as before,
so the sink stays below the limit of its length. -/
theorem boundaryLoop_induction
    {P : Bytes → Bytes → Nat → Sink → Except Fault (Option Sink × MpStream) → Prop} (bound : Nat)
    (hbound : bound < putbackSize) (hlength : workingBoundary.length ≤ bound + 1)
    (refused : ∀ {pending rest boffset sink}, (∃ size, heap size = false) →
      P pending rest boffset sink (.error .doubleFree))
    (ended : ∀ {boffset sink mpp}, boffset < workingBoundary.length →
      Stands input length mpp [] [] → P [] [] boffset sink (.ok (none, mpp)))
    (found : ∀ {pending rest boffset sink mpp d behind}, pending ++ rest = d :: behind →
      workingBoundary[boffset]? = some d → boffset + 1 = workingBoundary.length →
      Stands input length mpp (pending.drop 1) (rest.drop (1 - pending.length)) →
      pending.length ≤ bound → sink.Roomy → P pending rest boffset sink (.ok (some sink, mpp)))
    (matched : ∀ {pending rest boffset sink d behind result}, pending ++ rest = d :: behind →
      workingBoundary[boffset]? = some d →
      P (pending.drop 1) (rest.drop (1 - pending.length)) (boffset + 1) sink result →
      P pending rest boffset sink result)
    (failed : ∀ {pending rest boffset sink d behind after result}, pending ++ rest = d :: behind →
      workingBoundary[boffset]? ≠ some d → 0 < boffset → boffset < workingBoundary.length →
      Receives sink [workingBoundary.headD 0] after →
      P (pending.drop 1 ++ (workingBoundary.take boffset).tail ++ [d])
        (rest.drop (1 - pending.length)) 0 after result →
      P pending rest boffset sink result)
    (passed : ∀ {pending rest sink d behind after result}, pending ++ rest = d :: behind →
      workingBoundary[0]? ≠ some d → Receives sink [d] after →
      P (pending.drop 1) (rest.drop (1 - pending.length)) 0 after result →
      P pending rest 0 sink result)
    {pending rest : Bytes} {mpp : MpStream} {boffset : Nat} {sink : Sink}
    (h : Stands input length mpp pending rest) (hboffset : boffset < workingBoundary.length)
    (hpending : pending.length + boffset ≤ bound) (hroomy : sink.Roomy)
    (hlimit : sink.outLen + boffset + (pending ++ rest).length < 2 ^ 30) :
    P pending rest boffset sink (boundaryLoop heap length workingBoundary mpp boffset sink) := by
  have hagain : ∀ {pending' rest' mpp' boffset' sink'}, Stands input length mpp' pending' rest' →
      boffset' < workingBoundary.length → pending'.length + boffset' ≤ bound → sink'.Roomy →
      sink'.outLen + boffset' + (pending' ++ rest').length < 2 ^ 30 →
      Prod.Lex (· < ·) (· < ·) (boffset' + (pending' ++ rest').length, (pending' ++ rest').length)
        (boffset + (pending ++ rest).length, (pending ++ rest).length) →
      P pending' rest' boffset' sink'
        (boundaryLoop heap length workingBoundary mpp' boffset' sink') :=
    fun hstands hboffset' hpending' hroomy' hlimit' _ =>
      boundaryLoop_induction bound hbound hlength refused ended found matched failed passed hstands
        hboffset' hpending' hroomy' hlimit'
  cases hnext : pending ++ rest with
  | nil =>
      obtain ⟨rfl, rfl⟩ := List.append_eq_nil_iff.mp hnext
      obtain ⟨mpp', hread, hstands⟩ := mpReadByte_of_end h
      rw [boundaryLoop_of_end heap hread]
      exact ended hboffset hstands
  | cons d behind =>
      obtain ⟨mpp', hread, hstands⟩ := mpReadByte_of_stands h hnext
      have hbehind := drop_pending hnext
      rw [hnext, List.length_cons] at hagain hlimit
      rw [boundaryLoop_of_byte heap hread]
      by_cases hd : workingBoundary[boffset]? = some d
      · rw [if_pos hd]
        split_ifs with hlast
        · exact found hnext hd hlast hstands (by omega) hroomy
        · refine matched hnext hd (hagain hstands (by omega) ?_ hroomy ?_ ?_)
          · rw [List.length_drop]
            omega
          · rw [hbehind]
            omega
          · rw [hbehind]
            exact Prod.Lex.right' _ (by omega) (by omega)
      · rw [if_neg hd]
        split_ifs with hpos
        · rcases bappend_of_roomy heap hroomy (by omega) (workingBoundary.headD 0) with
            ⟨after, happend, hreceives⟩ | ⟨happend, hrefused⟩
          · have hgiven := hreceives.outLen_le
            rw [List.length_singleton] at hgiven
            have htail : (workingBoundary.take boffset).tail.length = boffset - 1 := by
              rw [List.length_tail, List.length_take_of_le hboffset.le]
            have hfirst := mpPutBack_of_stands hstands (workingBoundary.take boffset).tail
              (by rw [htail, List.length_drop]; omega)
            have hsecond := mpPutBack_of_stands hfirst [d]
              (by rw [List.length_append, htail, List.length_drop, List.length_singleton]; omega)
            have hstream : (pending.drop 1 ++ (workingBoundary.take boffset).tail ++ [d] ++
                rest.drop (1 - pending.length)).length = behind.length + boffset := by
              have hlengths := congrArg List.length hbehind
              simp only [List.length_append, List.length_drop] at hlengths
              simp only [List.length_append, htail, List.length_drop, List.length_singleton]
              omega
            rw [happend]
            refine failed hnext hd hpos hboffset hreceives
              (hagain hsecond (by omega) ?_ hreceives.roomy ?_ ?_)
            · rw [List.length_append, List.length_append, htail, List.length_drop,
                List.length_singleton]
              omega
            · rw [hstream]
              omega
            · rw [hstream]
              exact Prod.Lex.left _ _ (by omega)
          · rw [happend]
            exact refused hrefused
        · obtain rfl : boffset = 0 := by omega
          rcases bappend_of_roomy heap hroomy (by omega) d with
            ⟨after, happend, hreceives⟩ | ⟨happend, hrefused⟩
          · have hgiven := hreceives.outLen_le
            rw [List.length_singleton] at hgiven
            rw [happend]
            refine passed hnext hd hreceives (hagain hstands hboffset ?_ hreceives.roomy ?_ ?_)
            · rw [List.length_drop]
              omega
            · rw [hbehind]
              omega
            · rw [hbehind]
              exact Prod.Lex.left _ _ (by omega)
          · rw [happend]
            exact refused hrefused
termination_by (boffset + (pending ++ rest).length, (pending ++ rest).length)
decreasing_by assumption

/-- What the loop comes to when a text is split at the boundary, or is not, or when
the heap has no block for it. -/
inductive Splits (heap : Heap) (input : Bytes) (length : Nat) (sink : Sink) :
    Option (Bytes × Bytes) → Except Fault (Option Sink × MpStream) → Prop
  | refused {split : Option (Bytes × Bytes)} (hheap : ∃ size, heap size = false) :
      Splits heap input length sink split (.error .doubleFree)
  | missing {mpp : MpStream} (hstands : Stands input length mpp [] []) :
      Splits heap input length sink none (.ok (none, mpp))
  | found {front behind : Bytes} {after : Sink} {mpp : MpStream}
      (hreceives : Receives sink front after) (hstands : Stands input length mpp [] behind) :
      Splits heap input length sink (some (front, behind)) (.ok (some after, mpp))

/-- Bytes given to the sink before come before the body. -/
theorem Splits.prepend {split : Option (Bytes × Bytes)} {after : Sink} {bytes : Bytes}
    {result : Except Fault (Option Sink × MpStream)}
    (h : Splits heap input length after split result) (hreceives : Receives sink bytes after) :
    Splits heap input length sink (split.map fun parts => (bytes ++ parts.1, parts.2)) result := by
  cases h with
  | refused hheap => exact .refused hheap
  | missing hstands => exact .missing hstands
  | found hbody hstands => exact .found (hreceives.trans hbody) hstands

/-- Inside, but for the first and the last one. -/
theorem mem_dropLast_of_drop {bytes : Bytes} {c : UInt8} (h : c ∈ (bytes.drop 1).dropLast) :
    c ∈ bytes.dropLast := by
  cases bytes with
  | nil => exact h
  | cons b bytes =>
      rw [List.drop_succ_cons, List.drop_zero] at h
      have hne : bytes ≠ [] := by
        intro hnil
        simp [hnil] at h
      rw [List.dropLast_cons_of_ne_nil hne]
      exact List.mem_cons_of_mem b h

/-- While a match is under way nothing waits behind the byte that is read. -/
theorem empty_of_match {behind : Bytes} (hnext : pending ++ rest = d :: behind)
    (hd : workingBoundary[boffset]? = some d) (hbusy : 0 < boffset → pending = [])
    (hpending : ∀ c, workingBoundary.head? = some c → c ∉ pending.dropLast) :
    pending.drop 1 = [] := by
  rcases Nat.eq_zero_or_pos boffset with rfl | hpos
  · rw [← List.head?_eq_getElem?] at hd
    cases pending with
    | nil => rfl
    | cons b pending =>
        obtain rfl : b = d := (List.cons.inj hnext).1
        cases pending with
        | nil => rfl
        | cons c pending => exact absurd List.mem_cons_self (hpending b hd)
  · rw [hbusy hpos, List.drop_nil]

/-- A match that goes on by one byte. -/
theorem take_append_match (hd : workingBoundary[boffset]? = some d) (behind : Bytes) :
    workingBoundary.take boffset ++ d :: behind = workingBoundary.take (boffset + 1) ++ behind := by
  rw [List.take_add_one, hd, List.append_assoc]
  rfl

/-- The loop splits at the first occurrence of a delimiter whose first byte does
not come again in it.  That byte is nowhere in the ring but at its end, so the ring
is empty whenever a match is under way, and what is put back comes in its place. -/
theorem boundaryLoop_splits (hunbordered : Unbordered workingBoundary)
    (hne : workingBoundary ≠ []) (hsize : workingBoundary.length ≤ putbackSize)
    (h : Stands input length mpp pending rest)
    (hpending : ∀ c, workingBoundary.head? = some c → c ∉ pending.dropLast)
    (hroomy : sink.Roomy) (hlimit : sink.outLen + (pending ++ rest).length < 2 ^ 30) :
    Splits heap input length sink (splitFirst workingBoundary (pending ++ rest))
      (boundaryLoop heap length workingBoundary mpp 0 sink) := by
  have hpos := List.length_pos_of_ne_nil hne
  have hwaiting := h.length_pending_lt
  have hloop := boundaryLoop_induction heap
    (P := fun pending rest boffset sink result => (0 < boffset → pending = []) →
      (∀ c, workingBoundary.head? = some c → c ∉ pending.dropLast) →
      Splits heap input length sink
        (splitFirst workingBoundary (workingBoundary.take boffset ++ (pending ++ rest))) result)
    (putbackSize - 1) (by omega) (by omega) (fun hheap _ _ => .refused hheap)
    ?ended ?found ?matched ?failed ?passed h hpos (by omega) hroomy (by omega)
    (fun hzero => absurd hzero (Nat.lt_irrefl 0)) hpending
  · exact hloop
  case ended =>
    intro boffset sink mpp hboffset hstands _ _
    rw [List.append_nil, List.append_nil, splitFirst_of_length_lt]
    · exact .missing hstands
    · rw [List.length_take]
      omega
  case found =>
    intro pending rest boffset sink mpp d behind hnext hd hlast hstands _ hroomy hbusy hpending
    have hempty := empty_of_match hnext hd hbusy hpending
    have hbehind := drop_pending hnext
    rw [hempty, List.nil_append] at hbehind
    rw [hempty, hbehind] at hstands
    rw [hnext, take_append_match hd, hlast, List.take_length, splitFirst_self]
    exact .found (receives_nil hroomy) hstands
  case matched =>
    intro pending rest boffset sink d behind result hnext hd hagain hbusy hpending
    have hempty := empty_of_match hnext hd hbusy hpending
    rw [drop_pending hnext, hempty, ← take_append_match hd, ← hnext] at hagain
    exact hagain (fun _ => rfl) (fun _ _ => List.not_mem_nil)
  case failed =>
    intro pending rest boffset sink d behind after result hnext hd hbusyOffset hboffset hreceives
      hagain hbusy hpending
    have hone : workingBoundary.take 1 = [workingBoundary.headD 0] := by
      obtain ⟨b, tail, rfl⟩ := List.exists_cons_of_ne_nil hne
      rfl
    have hrest := drop_pending hnext
    rw [hbusy hbusyOffset, List.drop_nil, List.nil_append] at hrest
    rw [hnext, splitFirst_mismatch hboffset hbusyOffset hd, hone]
    refine Splits.prepend heap ?_ hreceives
    rw [hbusy hbusyOffset, List.drop_nil, List.nil_append, hrest, List.take_zero,
      List.nil_append, List.append_assoc, List.singleton_append] at hagain
    refine hagain (fun hzero => absurd hzero (Nat.lt_irrefl 0)) (fun c hc hmem => ?_)
    rw [List.dropLast_concat] at hmem
    have htail : (workingBoundary.take boffset).tail ⊆ workingBoundary.tail := by
      rw [← List.drop_one, ← List.drop_one, List.drop_take]
      exact List.take_subset _ _
    exact hunbordered c hc (htail hmem)
  case passed =>
    intro pending rest sink d behind after result hnext hd hreceives hagain _ hpending
    rw [List.take_zero, List.nil_append, drop_pending hnext] at hagain
    rw [← List.head?_eq_getElem?] at hd
    rw [List.take_zero, List.nil_append, hnext, splitFirst_cons_of_ne hd hne]
    exact (hagain (fun hzero => absurd hzero (Nat.lt_irrefl 0))
      (fun c hc hmem => hpending c hc (mem_dropLast_of_drop hmem))).prepend heap hreceives

/-- The rest of the boundary, byte by byte. -/
theorem boundaryLoop_matches (remaining : Nat) :
    ∀ {mpp : MpStream} {boffset : Nat} {behind : Bytes},
      boffset + remaining + 1 = workingBoundary.length →
      Stands input length mpp [] (workingBoundary.drop boffset ++ behind) →
      ∃ mpp', boundaryLoop heap length workingBoundary mpp boffset sink = .ok (some sink, mpp') ∧
        Stands input length mpp' [] behind := by
  induction remaining with
  | zero =>
      intro mpp boffset behind hend h
      rw [List.drop_eq_getElem_cons (by omega), List.drop_of_length_le (by omega)] at h
      obtain ⟨mpp', hread, hstands⟩ := mpReadByte_of_stands h rfl
      refine ⟨mpp', ?_, hstands⟩
      rw [boundaryLoop_of_byte heap hread, if_pos (List.getElem?_eq_getElem _), if_pos hend]
  | succ remaining ih =>
      intro mpp boffset behind hend h
      rw [List.drop_eq_getElem_cons (by omega)] at h
      obtain ⟨mpp', hread, hstands⟩ := mpReadByte_of_stands h rfl
      rw [boundaryLoop_of_byte heap hread, if_pos (List.getElem?_eq_getElem _), if_neg (by omega)]
      exact ih (by omega) hstands

/-- A boundary behind bytes that do not begin it. -/
theorem boundaryLoop_opening (hne : workingBoundary ≠ []) (preamble : Bytes) :
    ∀ {mpp : MpStream} {behind : Bytes}, (∀ d ∈ preamble, workingBoundary.head? ≠ some d) →
      Stands input length mpp [] (preamble ++ workingBoundary ++ behind) →
      ∃ mpp', boundaryLoop heap length workingBoundary mpp 0 .discard = .ok (some .discard, mpp') ∧
        Stands input length mpp' [] behind := by
  have hpos := List.length_pos_of_ne_nil hne
  induction preamble with
  | nil =>
      intro mpp behind _ h
      exact boundaryLoop_matches heap (workingBoundary.length - 1) (by omega) h
  | cons d preamble ih =>
      intro mpp behind hhead h
      obtain ⟨mpp', hread, hstands⟩ := mpReadByte_of_stands h rfl
      have hd : workingBoundary[0]? ≠ some d := by
        rw [← List.head?_eq_getElem?]
        exact hhead d List.mem_cons_self
      rw [boundaryLoop_of_byte heap hread, if_neg hd, if_neg (Nat.lt_irrefl 0)]
      exact ih (fun b hb => hhead b (List.mem_cons_of_mem d hb)) hstands

end Loop

/-! ## Whole bodies -/

/-- What the trailer leaves of the stream. -/
def afterTrailer : Bytes → Option Bytes
  | d0 :: d1 :: rest =>
      some (if d0 = hyphen then d0 :: d1 :: rest else rest)
  | _ => none

/-- The next body and what is left behind its boundary, on plain byte strings. -/
def nextBody (cgiMultipartBoundary stream : Bytes) : Option (Bytes × Bytes) :=
  (splitFirst (delimiter cgiMultipartBoundary) stream).bind fun parts =>
    (afterTrailer parts.2).map fun stream => (parts.1, stream)

section Bodies

variable (heap : Heap) {input pending rest boundary : Bytes} {length : Nat} {mpp : MpStream}
  {sink : Sink}

/-- Too few bytes for a trailer. -/
theorem readTrailer_of_short {mpp' : MpStream} {got : Option Bytes}
    (hread : mpRead length mpp 2 = .ok (got, mpp')) (hgot : (got.getD []).length < 2) :
    readTrailer length mpp sink = .ok (none, mpp') := by
  rw [readTrailer, hread]
  match got, hgot with
  | none, _ => rfl
  | some [], _ => rfl
  | some [_], _ => rfl
  | some (_ :: _ :: _), hgot => simp at hgot

/-- The trailer is found when two bytes are left, and a `-` stays in the stream. -/
theorem readTrailer_of_stands (h : Stands input length mpp pending rest) (hroomy : sink.Roomy) :
    ∃ mpp' pending' rest', readTrailer length mpp sink =
        .ok ((afterTrailer (pending ++ rest)).map fun _ => sink, mpp') ∧
      Stands input length mpp' pending' rest' ∧
      (pending = [] → pending'.length ≤ 2 ∧
        ∀ stream, afterTrailer (pending ++ rest) = some stream → pending' ++ rest' = stream) := by
  obtain ⟨got, mpp', hread, hgot, hstands⟩ := mpRead_of_stands h Nat.two_pos
  have hempty : pending = [] → pending.drop 2 = [] := fun hnil => by rw [hnil, List.drop_nil]
  have hdrop : pending.drop 2 ++ rest.drop (2 - pending.length) = (pending ++ rest).drop 2 :=
    List.drop_append.symm
  match hnext : pending ++ rest, hgot, hdrop with
  | [], hgot, hdrop | [_], hgot, hdrop =>
      refine ⟨mpp', _, _, readTrailer_of_short hread (by simp [hgot]), hstands, fun hnil => ?_⟩
      exact ⟨by simp [hempty hnil], fun stream hstream => by simp [afterTrailer] at hstream⟩
  | d0 :: d1 :: behind, hgot, hdrop =>
      obtain rfl : got = some [d0, d1] := by
        cases got with
        | none => cases hgot
        | some got => exact congrArg some hgot
      simp only [readTrailer, hread, terminate_of_roomy hroomy, afterTrailer]
      by_cases hhyphen : d0 = hyphen
      · have hreturn : ¬ (d0 = carriageReturn ∧ d1 = newline) := by
          intro hboth
          exact absurd (hhyphen.symm.trans hboth.1) (by decide)
        have hwaiting := h.length_pending_lt
        have hback := mpPutBack_of_stands hstands [d0, d1]
          (by simp [putbackSize] at hwaiting ⊢; omega)
        simp only [if_neg hreturn, if_pos hhyphen]
        refine ⟨_, _, _, rfl, hback, fun hnil => ⟨by simp [hempty hnil], fun stream hstream => ?_⟩⟩
        obtain rfl := Option.some.inj hstream
        rw [hempty hnil, List.nil_append] at hdrop ⊢
        rw [hdrop]
        rfl
      · simp only [if_neg hhyphen, ite_self]
        refine ⟨_, _, _, rfl, hstands,
          fun hnil => ⟨by simp [hempty hnil], fun stream hstream => ?_⟩⟩
        obtain rfl := Option.some.inj hstream
        exact hdrop

/-- What `afterNextBoundary` comes to when the stream has another body, or has not, or
when the heap has no block for it. -/
inductive Passes (heap : Heap) (input : Bytes) (length : Nat) (sink : Sink) :
    Option (Bytes × Bytes) → Except Fault (Option Sink × MpStream) → Prop
  | refused {next : Option (Bytes × Bytes)} (hheap : ∃ size, heap size = false) :
      Passes heap input length sink next (.error .doubleFree)
  | missing {mpp : MpStream} {pending rest : Bytes}
      (hstands : Stands input length mpp pending rest) :
      Passes heap input length sink none (.ok (none, mpp))
  | found {body : Bytes} {after : Sink} {mpp : MpStream} {pending rest : Bytes}
      (hreceives : Receives sink body after) (hstands : Stands input length mpp pending rest)
      (hpending : pending.length ≤ 2) :
      Passes heap input length sink (some (body, pending ++ rest)) (.ok (some after, mpp))

/-- The delimiter begins with a line break. -/
theorem delimiter_eq (boundary : Bytes) :
    delimiter boundary = carriageReturn :: newline :: hyphen :: hyphen :: boundary := rfl

/-- Without a carriage return in the boundary, no front of the delimiter is also an end of
it. -/
theorem unbordered_delimiter (h : carriageReturn ∉ boundary) : Unbordered (delimiter boundary) := by
  intro c hc
  rw [delimiter_eq] at hc ⊢
  obtain rfl := Option.some.inj hc
  simp only [List.tail_cons, List.mem_cons, not_or]
  exact ⟨by decide, by decide, by decide, h⟩

/-- **The body of a part** is what stands before the first delimiter, whatever it
is made of. -/
theorem afterNextBoundary_of_stands (hreturn : carriageReturn ∉ boundary)
    (hsize : boundary.length ≤ 1019) (h : Stands input length mpp pending rest)
    (hpending : carriageReturn ∉ pending.dropLast) (hroomy : sink.Roomy)
    (hlimit : sink.outLen + (pending ++ rest).length < 2 ^ 30) :
    Passes heap input length sink (nextBody boundary (pending ++ rest))
      (afterNextBoundary heap length boundary mpp sink false) := by
  have hlength : (delimiter boundary).length = boundary.length + 4 := rfl
  have hloop := boundaryLoop_splits heap (unbordered_delimiter hreturn) (List.cons_ne_nil _ _)
    (by rw [hlength, putbackSize]; omega) h
    (fun c hc => by obtain rfl := Option.some.inj hc; exact hpending) hroomy hlimit
  simp only [afterNextBoundary, if_neg (show ¬ 1024 ≤ (delimiter boundary).length by omega),
    Bool.false_eq_true, if_false, nextBody]
  generalize boundaryLoop heap length (delimiter boundary) mpp 0 sink = result at hloop
  generalize splitFirst (delimiter boundary) (pending ++ rest) = split at hloop
  cases hloop with
  | refused hheap => exact .refused hheap
  | missing hstands => exact .missing hstands
  | @found front behind after mpp' hreceives hstands =>
      obtain ⟨mpp'', pending', rest', htrailer, hstands', hexact⟩ :=
        readTrailer_of_stands hstands hreceives.roomy
      obtain ⟨hlength', hstream⟩ := hexact rfl
      simp only [htrailer]
      cases hbehind : afterTrailer behind with
      | none =>
          simp only [List.nil_append, hbehind, Option.bind_some, Option.map_none]
          exact .missing hstands'
      | some stream =>
          simp only [List.nil_append, hbehind, Option.bind_some, Option.map_some]
          obtain rfl := hstream stream hbehind
          exact .found hreceives hstands' hlength'

/-- The first boundary, behind a preamble without hyphens or without one at all. -/
theorem openingBoundary_of_stands {preamble behind : Bytes} (hsize : boundary.length ≤ 1019)
    (hpreamble : hyphen ∉ preamble)
    (h : Stands input length mpp [] (preamble ++ (hyphen :: hyphen :: boundary) ++ behind)) :
    ∃ mpp' pending' rest', afterNextBoundary heap length boundary mpp .discard true =
        .ok ((afterTrailer behind).map fun _ => .discard, mpp') ∧
      Stands input length mpp' pending' rest' ∧ pending'.length ≤ 2 ∧
      ∀ stream, afterTrailer behind = some stream → pending' ++ rest' = stream := by
  have hlength : (delimiter boundary).length = boundary.length + 4 := rfl
  have hhead : ∀ d ∈ preamble, (hyphen :: hyphen :: boundary).head? ≠ some d := by
    intro d hd heq
    exact hpreamble (Option.some.inj heq ▸ hd)
  obtain ⟨mpp', hloop, hstands⟩ := boundaryLoop_opening heap (List.cons_ne_nil _ _) preamble hhead h
  obtain ⟨mpp'', pending', rest', htrailer, hstands', hexact⟩ :=
    readTrailer_of_stands hstands (show Sink.discard.Roomy from trivial)
  obtain ⟨hlength', hstream⟩ := hexact rfl
  have hopening : (delimiter boundary).drop 2 = hyphen :: hyphen :: boundary := rfl
  refine ⟨mpp'', pending', rest', ?_, hstands', hlength', hstream⟩
  simp only [afterNextBoundary, if_neg (show ¬ 1024 ≤ (delimiter boundary).length by omega),
    if_true, hopening, hloop, htrailer, List.nil_append]

/-- In any mode, for any boundary that fits, nothing is read behind the content
length and nothing is stored outside a buffer; a block is freed twice at worst, when
the heap has no larger one. -/
theorem afterNextBoundary_safe (hsize : boundary.length ≤ 1019)
    (h : Stands input length mpp pending rest) (hroomy : sink.Roomy)
    (hlimit : sink.outLen + (pending ++ rest).length < 2 ^ 30) (first : Bool) :
    (afterNextBoundary heap length boundary mpp sink first = .error .doubleFree ∧
      ∃ size, heap size = false) ∨
    ∃ outcome mpp' pending' rest', afterNextBoundary heap length boundary mpp sink first =
      .ok (outcome, mpp') ∧ Stands input length mpp' pending' rest' := by
  have hlength : (delimiter boundary).length = boundary.length + 4 := rfl
  have hwaiting := h.length_pending_lt
  simp only [afterNextBoundary, if_neg (show ¬ 1024 ≤ (delimiter boundary).length by omega)]
  generalize hw : (if first = true then (delimiter boundary).drop 2 else delimiter boundary) = w
  have hfits : 0 < w.length ∧ w.length ≤ putbackSize := by
    rw [← hw]
    split <;> simp only [List.length_drop, hlength, putbackSize] <;> omega
  have hloop := boundaryLoop_induction heap
    (P := fun _ _ _ _ result => (result = .error .doubleFree ∧ ∃ size, heap size = false) ∨
      ∃ outcome mpp' pending' rest', result = .ok (outcome, mpp') ∧
        Stands input length mpp' pending' rest' ∧ ∀ after, outcome = some after → after.Roomy)
    (putbackSize - 1) (by omega) (by omega)
    (fun hheap => .inl ⟨rfl, hheap⟩)
    (fun _ hstands => .inr ⟨none, _, _, _, rfl, hstands, fun _ hnone => nomatch hnone⟩)
    (fun _ _ _ hstands _ hroomy => .inr ⟨some _, _, _, _, rfl, hstands, fun _ hsome =>
      Option.some.inj hsome ▸ hroomy⟩)
    (fun _ _ hagain => hagain) (fun _ _ _ _ _ hagain => hagain) (fun _ _ _ hagain => hagain)
    h hfits.1 (by omega) hroomy (by omega)
  rcases hloop with
    ⟨hresult, hheap⟩ | ⟨outcome, mpp', pending', rest', hresult, hstands, houtcome⟩
  · rw [hresult]
    exact .inl ⟨rfl, hheap⟩
  · rw [hresult]
    cases outcome with
    | none => exact .inr ⟨none, mpp', _, _, rfl, hstands⟩
    | some after =>
        obtain ⟨mpp'', pending'', rest'', htrailer, hstands', -⟩ :=
          readTrailer_of_stands hstands (houtcome after rfl)
        exact .inr ⟨_, mpp'', _, _, htrailer, hstands'⟩

/-- Both at once: unless a block is freed twice a call returns, and between parts it
returns the next body. -/
theorem afterNextBoundary_returns (hsize : boundary.length ≤ 1019)
    (h : Stands input length mpp pending rest) (hroomy : sink.Roomy)
    (hlimit : sink.outLen + (pending ++ rest).length < 2 ^ 30) :
    (afterNextBoundary heap length boundary mpp sink false = .error .doubleFree ∧
      ∃ size, heap size = false) ∨
    ∃ outcome mpp' pending' rest', afterNextBoundary heap length boundary mpp sink false =
        .ok (outcome, mpp') ∧ Stands input length mpp' pending' rest' ∧
      (carriageReturn ∉ boundary → carriageReturn ∉ pending.dropLast →
        match outcome with
        | none => nextBody boundary (pending ++ rest) = none
        | some after => pending'.length ≤ 2 ∧ ∃ body, Receives sink body after ∧
            nextBody boundary (pending ++ rest) = some (body, pending' ++ rest')) := by
  by_cases hexact : carriageReturn ∉ boundary ∧ carriageReturn ∉ pending.dropLast
  · have hpasses :=
      afterNextBoundary_of_stands heap hexact.1 hsize h hexact.2 hroomy hlimit
    generalize afterNextBoundary heap length boundary mpp sink false = result at hpasses
    generalize nextBody boundary (pending ++ rest) = next at hpasses
    cases hpasses with
    | refused hheap => exact .inl ⟨rfl, hheap⟩
    | missing hstands => exact .inr ⟨none, _, _, _, rfl, hstands, fun _ _ => rfl⟩
    | found hreceives hstands hlength =>
        exact .inr ⟨some _, _, _, _, rfl, hstands, fun _ _ => ⟨hlength, _, hreceives, rfl⟩⟩
  · rcases afterNextBoundary_safe heap hsize h hroomy hlimit false with
      hrefused | ⟨outcome, mpp', pending', rest', hresult, hstands⟩
    · exact .inl hrefused
    · exact .inr ⟨outcome, mpp', pending', rest', hresult, hstands,
        fun hboundary hpending => absurd ⟨hboundary, hpending⟩ hexact⟩

/-- A body that is cut off leaves less of the stream. -/
theorem length_nextBody_lt {body stream behind : Bytes}
    (h : nextBody boundary stream = some (body, behind)) : behind.length < stream.length := by
  obtain ⟨⟨front, rest⟩, hsplit, hbehind⟩ := Option.bind_eq_some_iff.mp h
  obtain ⟨after, htrailer, hpair⟩ := Option.map_eq_some_iff.mp hbehind
  obtain ⟨rfl, rfl⟩ := Prod.mk.inj hpair
  have hlength : after.length ≤ rest.length := by
    match rest, htrailer with
    | d0 :: d1 :: rest, htrailer =>
        obtain rfl := Option.some.inj htrailer
        simp only [List.length_cons]
        split_ifs
        · exact Nat.le_refl _
        · omega
  rw [append_of_splitFirst hsplit, delimiter_eq]
  simp only [List.length_append, List.length_cons]
  omega

end Bodies

end Multipart
