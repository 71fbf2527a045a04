import BlockstreamStation.MultipartHeaders

/-!
# The multipart parser

`cgiParsePostMultipartInput` of `cgic.c` turns the body of a request into form
entries.  Uploaded files go into temporary files; what `mkstemp` and `fopen` do is a
parameter, as is the memory for the bodies, and the web server, which writes the body
to `cgiIn`.  The small blocks of an entry (its strings) are taken to be had.

* `cgiParsePostMultipartInput_safe`: for any body below 2 ^ 30 bytes the parser reads no
  byte behind the content length and stores nothing outside a buffer.  Its faults are
  the store through a null pointer for a parameter it does not expect, the block that
  is freed twice when `realloc` fails, and the read of a negative content length;
* `cgiParsePostMultipartInput_agrees`: for a body that begins with its boundary it does what
  `formParts` does on a plain byte string, where put-back and ring are gone.
-/

namespace Multipart

open CText

/-- `cgiParseResultType`, as far as the multipart parser returns it. -/
inductive ParseResult
  | success
  | memory
  | io
deriving DecidableEq, Repr

/-- `cgiFormEntry`.  `value` is what stands before the terminator that the parser
stores, and may hold NULs. -/
structure Entry where
  attr : Bytes
  value : Bytes
  valueLength : Nat
  fileName : Bytes
  contentType : Bytes
  tfileName : Bytes
deriving DecidableEq, Repr

/-- What `getTempFileName` and `fopen` do: no name, or a name for a file that may
fail to open. -/
inductive TempFile
  | failed
  | created (name : Bytes) (opened : Bool)
deriving DecidableEq, Repr

/-- What the system gives the parser: a temporary file for each upload, and memory for
the body of each entry. -/
structure Host where
  temp : Nat → TempFile
  heap : Nat → Heap

/-- There is always memory. -/
def Host.Ample (host : Host) : Prop := ∀ i size, host.heap i size = true

/-- The entries so far, the temporary files with their contents, and how many names
were asked for. -/
structure Form where
  entries : List Entry
  files : List (Bytes × Bytes)
  uploads : Nat
deriving DecidableEq, Repr

def Form.empty : Form := ⟨[], [], 0⟩

def PartHeader.empty : PartHeader := ⟨[], [], [], []⟩

/-- Append the entry of a part. -/
def Form.add (form : Form) (header : PartHeader) (tfileName body : Bytes) (inFile : Bool) :
    Form where
  entries := form.entries ++ [{
    attr := header.fname
    value := if inFile then [] else body
    valueLength := body.length
    fileName := header.ffileName
    contentType := header.fcontentType
    tfileName := tfileName }]
  files := if inFile then form.files ++ [(tfileName, body)] else form.files
  uploads := if header.ffileName = [] then form.uploads else form.uploads + 1

/-- The block that `afterNextBoundary` begins with, unless `malloc` fails. -/
def openMemory (heap : Heap) (tfileName : Bytes) : Except ParseResult (Bytes × Sink) :=
  if heap 256 then .ok (tfileName, .memory [] 256) else .error .memory

/-- Where the body of a part goes, with the name of its temporary file. -/
def openSink (temp : TempFile) (heap : Heap) (header : PartHeader) :
    Except ParseResult (Bytes × Sink) :=
  if header.ffileName = [] then openMemory heap []
  else
    match temp with
    | .failed => .error .io
    | .created name opened => if opened then .ok (name, .file []) else openMemory heap name

def Sink.inFile : Sink → Bool
  | .file _ => true
  | _ => false

def Sink.body : Sink → Bytes
  | .discard => []
  | .file written => written
  | .memory out _ => out

/-- The loop of `cgiParsePostMultipartInput`. -/
def formLoop (cgiContentLength : Int) (cgiMultipartBoundary : Bytes) (host : Host)
    (mpp : MpStream) (form : Form) : Except Fault (ParseResult × Form × MpStream) :=
  match _hread : mpRead cgiContentLength mpp 2 with
  | .error fault => .error fault
  | .ok (some [d0, d1], mpp') =>
      if d0 = hyphen ∧ d1 = hyphen then .ok (.success, form, mpp')
      else
        match _hheaders :
            headersLoop cgiContentLength (mpPutBack mpp' [d0, d1]) PartHeader.empty with
        | .error fault => .error fault
        | .ok (header, mpp'') =>
            if ¬ cgiStrEqNc header.fvalue (text "form-data") then
              match _hbody : afterNextBoundary (host.heap form.entries.length) cgiContentLength
                  cgiMultipartBoundary mpp'' .discard false with
              | .error fault => .error fault
              | .ok (none, after) => .ok (.io, form, after)
              | .ok (some _, after) =>
                  formLoop cgiContentLength cgiMultipartBoundary host after form
            else
              match openSink (host.temp form.uploads) (host.heap form.entries.length) header with
              | .error result => .ok (result, form, mpp'')
              | .ok (tfileName, sink) =>
                  match _hbody : afterNextBoundary (host.heap form.entries.length)
                      cgiContentLength cgiMultipartBoundary mpp'' sink false with
                  | .error fault => .error fault
                  | .ok (none, after) => .ok (.io, form, after)
                  | .ok (some sink, after) =>
                      formLoop cgiContentLength cgiMultipartBoundary host after
                        (form.add header tfileName sink.body sink.inFile)
  | .ok (_, mpp') => .ok (.success, form, mpp')
termination_by room cgiContentLength mpp
decreasing_by
  all_goals
    have hroom : room cgiContentLength mpp' + 2 = room cgiContentLength mpp :=
      room_of_mpRead _hread
    have hback : room cgiContentLength (mpPutBack mpp' [d0, d1]) ≤ room cgiContentLength mpp' + 2 :=
      room_mpPutBack_le cgiContentLength mpp' [d0, d1]
    have hheaders := room_of_headersLoop _ _ _hheaders
    have hbody := room_of_afterNextBoundary _hbody
    omega

/-- The same loop on a plain byte string, with memory for every body. -/
def formParts (cgiMultipartBoundary : Bytes) (temp : Nat → TempFile) (stream : Bytes)
    (form : Form) : Except Fault (ParseResult × Form) :=
  match stream with
  | d0 :: d1 :: rest =>
      if d0 = hyphen ∧ d1 = hyphen then .ok (.success, form)
      else
        match _hheaders : scanHeaders PartHeader.empty (d0 :: d1 :: rest) with
        | .error fault => .error fault
        | .ok (header, behind) =>
            match _hbody : nextBody cgiMultipartBoundary behind with
            | none => .ok (.io, form)
            | some (body, after) =>
                if ¬ cgiStrEqNc header.fvalue (text "form-data") then
                  formParts cgiMultipartBoundary temp after form
                else
                  match openSink (temp form.uploads) (fun _ => true) header with
                  | .error result => .ok (result, form)
                  | .ok (tfileName, sink) =>
                      formParts cgiMultipartBoundary temp after
                        (form.add header tfileName body sink.inFile)
  | _ => .ok (.success, form)
termination_by stream.length
decreasing_by
  all_goals
    have hheaders := length_scanHeaders _ _ _hheaders
    have hbody := length_nextBody_lt _hbody
    omega

/-- `cgiParsePostMultipartInput`, with the stream it leaves. -/
def cgiParsePostMultipartInput (cgiContentLength : Int) (cgiMultipartBoundary cgiIn : Bytes)
    (host : Host) : Except Fault (ParseResult × Form × MpStream) :=
  let mpp := freshStream cgiIn
  if cgiContentLength = 0 then .ok (.success, Form.empty, mpp)
  else
    match afterNextBoundary (host.heap 0) cgiContentLength cgiMultipartBoundary mpp .discard
        true with
    | .error fault => .error fault
    | .ok (none, mpp) => .ok (.success, Form.empty, mpp)
    | .ok (some _, mpp) => formLoop cgiContentLength cgiMultipartBoundary host mpp Form.empty

/-! ## The loop on a stream -/

/-- The body of a part goes into an empty sink, which keeps what it receives. -/
structure Opened (sink : Sink) : Prop where
  roomy : sink.Roomy
  empty : sink.outLen = 0
  receives : ∀ body after, Receives sink body after →
    after.body = body ∧ after.inFile = sink.inFile

/-- A temporary file begins empty. -/
theorem opened_file : Opened (.file []) where
  roomy := trivial
  empty := rfl
  receives body after h := by cases h; exact ⟨rfl, rfl⟩

/-- So does the block. -/
theorem opened_memory : Opened (.memory [] 256) where
  roomy := Nat.succ_pos 255
  empty := rfl
  receives body after h := by cases h; exact ⟨rfl, rfl⟩

/-- A block that was had begins empty. -/
theorem opened_of_openMemory {heap : Heap} {tfileName name : Bytes} {sink : Sink}
    (h : openMemory heap tfileName = .ok (name, sink)) : Opened sink := by
  rw [openMemory] at h
  split at h
  · cases h
    exact opened_memory
  · cases h

/-- Whatever is opened begins empty. -/
theorem opened_of_openSink {temp : TempFile} {heap : Heap} {header : PartHeader}
    {tfileName : Bytes} {sink : Sink} (h : openSink temp heap header = .ok (tfileName, sink)) :
    Opened sink := by
  rw [openSink.eq_def] at h
  split at h
  · exact opened_of_openMemory h
  · split at h
    · cases h
    · split at h
      · cases h
        exact opened_file
      · exact opened_of_openMemory h

/-- With memory only a temporary file can be missing. -/
theorem eq_io_of_openSink {temp : TempFile} {header : PartHeader} {result : ParseResult}
    (h : openSink temp (fun _ => true) header = .error result) : result = .io := by
  rw [openSink.eq_def] at h
  split at h
  · cases h
  · split at h
    · cases h
      rfl
    · split at h <;> cases h

section Loop

variable {input boundary : Bytes} {length : Nat} {host : Host}

/-- A round of the loop on a plain byte string. -/
theorem formParts_eq {temp : Nat → TempFile} {d0 d1 : UInt8} {behind stream : Bytes} {form : Form}
    {header : PartHeader} (hend : ¬ (d0 = hyphen ∧ d1 = hyphen))
    (hscan : scanHeaders PartHeader.empty (d0 :: d1 :: behind) = .ok (header, stream)) :
    formParts boundary temp (d0 :: d1 :: behind) form =
      match nextBody boundary stream with
      | none => .ok (.io, form)
      | some (body, after) =>
          if ¬ cgiStrEqNc header.fvalue (text "form-data") then formParts boundary temp after form
          else
            match openSink (temp form.uploads) (fun _ => true) header with
            | .error result => .ok (result, form)
            | .ok (tfileName, sink) =>
                formParts boundary temp after (form.add header tfileName body sink.inFile) := by
  rw [formParts, if_neg hend, hscan]
  dsimp only
  split <;> rename_i hbody <;> rw [hbody]

/-- A round of the loop behind the header of a part: its body, and what comes behind it. -/
def bodyRound (cgiContentLength : Int) (cgiMultipartBoundary : Bytes) (host : Host)
    (mpp : MpStream) (form : Form) (sink : Sink) (next : Sink → Form) :
    Except Fault (ParseResult × Form × MpStream) :=
  match afterNextBoundary (host.heap form.entries.length) cgiContentLength cgiMultipartBoundary
      mpp sink false with
  | .error fault => .error fault
  | .ok (none, after) => .ok (.io, form, after)
  | .ok (some sink, after) =>
      formLoop cgiContentLength cgiMultipartBoundary host after (next sink)

/-- A round of the loop that finds a part. -/
theorem formLoop_eq {mpp mpp' mpp'' : MpStream} {form : Form} {d0 d1 : UInt8}
    {header : PartHeader} (hread : mpRead length mpp 2 = .ok (some [d0, d1], mpp'))
    (hend : ¬ (d0 = hyphen ∧ d1 = hyphen))
    (hheaders : headersLoop length (mpPutBack mpp' [d0, d1]) PartHeader.empty =
      .ok (header, mpp'')) :
    formLoop length boundary host mpp form =
      if ¬ cgiStrEqNc header.fvalue (text "form-data") then
        bodyRound length boundary host mpp'' form .discard fun _ => form
      else
        match openSink (host.temp form.uploads) (host.heap form.entries.length) header with
        | .error result => .ok (result, form, mpp'')
        | .ok (tfileName, sink) => bodyRound length boundary host mpp'' form sink
            fun sink => form.add header tfileName sink.body sink.inFile := by
  rw [formLoop, hread]
  dsimp only
  rw [if_neg hend, hheaders]
  dsimp only
  by_cases hform : cgiStrEqNc header.fvalue (text "form-data") = true
  · rw [if_neg (not_not.mpr hform), if_neg (not_not.mpr hform)]
    cases openSink (host.temp form.uploads) (host.heap form.entries.length) header with
    | error result => rfl
    | ok opened =>
        dsimp only
        rw [bodyRound]
        split <;> rename_i hbody <;> rw [hbody]
  · rw [if_pos hform, if_pos hform, bodyRound]
    split <;> rename_i hbody <;> rw [hbody]

/-- Fewer than two bytes end the form. -/
theorem formLoop_of_short {mpp mpp' : MpStream} {form : Form} {got : Option Bytes}
    (hread : mpRead length mpp 2 = .ok (got, mpp')) (hgot : (got.getD []).length < 2) :
    formLoop length boundary host mpp form = .ok (.success, form, mpp') := by
  rw [formLoop]
  split
  · rename_i hfault
    rw [hread] at hfault
    cases hfault
  · rename_i hsome
    rw [hread] at hsome
    cases hsome
    exact absurd hgot (Nat.lt_irrefl 2)
  · rename_i hsome
    rw [hread] at hsome
    cases hsome
    rfl

/-- **The header of a part behind the two bytes that were looked at.**  They are put back;
where at most two bytes were waiting, the header is the one of the plain byte string, and
what waits behind it begins no delimiter. -/
theorem headersLoop_of_putBack {pending rest behind : Bytes} {mpp mpp' : MpStream}
    {d0 d1 : UInt8} (h : Stands input length mpp pending rest)
    (hstands : Stands input length mpp' (pending.drop 2) (rest.drop (2 - pending.length)))
    (hnext : pending ++ rest = d0 :: d1 :: behind) :
    (headersLoop length (mpPutBack mpp' [d0, d1]) PartHeader.empty = .error .nullStore ∧
      (pending.length ≤ 2 →
        scanHeaders PartHeader.empty (d0 :: d1 :: behind) = .error .nullStore)) ∨
    ∃ header mpp'' pending' rest',
      headersLoop length (mpPutBack mpp' [d0, d1]) PartHeader.empty = .ok (header, mpp'') ∧
      Stands input length mpp'' pending' rest' ∧
      (pending.length ≤ 2 → carriageReturn ∉ pending'.dropLast ∧
        scanHeaders PartHeader.empty (d0 :: d1 :: behind) = .ok (header, pending' ++ rest')) := by
  have hwaiting := h.length_pending_lt
  have hback := mpPutBack_of_stands hstands [d0, d1]
    (by simp [putbackSize] at hwaiting ⊢; omega)
  -- what was put back stands where it stood, unless more was waiting
  have hsame : pending.length ≤ 2 →
      pending.drop 2 ++ [d0, d1] = [d0, d1] ∧
        [d0, d1] ++ rest.drop (2 - pending.length) = d0 :: d1 :: behind := by
    intro htwo
    have hempty : pending.drop 2 = [] := List.drop_eq_nil_of_le htwo
    have hdrop : pending.drop 2 ++ rest.drop (2 - pending.length) = (pending ++ rest).drop 2 :=
      List.drop_append.symm
    rw [hempty, List.nil_append] at hdrop ⊢
    exact ⟨rfl, by rw [hdrop, hnext]; rfl⟩
  rcases headersLoop_of_stands hback PartHeader.empty with
    ⟨hfault, hexact⟩ | ⟨header, mpp'', pending', rest', hheaders, hstands', hexact⟩
  · refine .inl ⟨hfault, fun htwo => ?_⟩
    obtain ⟨hpair, hstream⟩ := hsame htwo
    rw [hpair, hstream] at hexact
    exact hexact (Nat.le_refl 2)
  · refine .inr ⟨header, mpp'', pending', rest', hheaders, hstands', fun htwo => ?_⟩
    obtain ⟨hpair, hstream⟩ := hsame htwo
    rw [hpair, hstream] at hexact
    obtain ⟨hone, hscan⟩ := hexact (Nat.le_refl 2)
    have hnil : pending'.dropLast = [] := List.length_eq_zero_iff.mp (by simp; omega)
    rw [hnil]
    exact ⟨List.not_mem_nil, hscan⟩

/-- Where the parser is exact: there is memory, the boundary has no carriage return, and at
most two bytes are waiting. -/
structure Exact (host : Host) (boundary pending : Bytes) : Prop where
  ample : host.Ample
  no_return : carriageReturn ∉ boundary
  waiting : pending.length ≤ 2

/-- A loop on the stream ends: with the fault of an unexpected parameter, with a block freed
twice for want of memory, or with a result.  Where `exact` holds a loop on a plain byte
string ends alike. -/
inductive EndsAlike (input : Bytes) (length : Nat) (host : Host) (exact : Prop) :
    Except Fault (ParseResult × Form × MpStream) → Except Fault (ParseResult × Form) → Prop
  | unexpected {parts : Except Fault (ParseResult × Form)}
      (hparts : exact → parts = .error .nullStore) :
      EndsAlike input length host exact (.error .nullStore) parts
  | refused {parts : Except Fault (ParseResult × Form)}
      (hheap : ∃ i size, host.heap i size = false) :
      EndsAlike input length host exact (.error .doubleFree) parts
  | returns {parts : Except Fault (ParseResult × Form)} {result : ParseResult} {form : Form}
      {mpp : MpStream} {pending rest : Bytes} (hstands : Stands input length mpp pending rest)
      (hparts : exact → parts = .ok (result, form)) :
      EndsAlike input length host exact (.ok (result, form, mpp)) parts

/-- Two loops that go on as others end as those do. -/
theorem EndsAlike.of_continues {exact exact' : Prop}
    {loop : Except Fault (ParseResult × Form × MpStream)}
    {parts parts' : Except Fault (ParseResult × Form)}
    (h : EndsAlike input length host exact loop parts)
    (hgoesOn : exact' → exact ∧ parts' = parts) :
    EndsAlike input length host exact' loop parts' := by
  cases h with
  | unexpected hparts =>
      exact .unexpected fun hexact => (hgoesOn hexact).2.trans (hparts (hgoesOn hexact).1)
  | refused hheap => exact .refused hheap
  | returns hstands hparts =>
      exact .returns hstands fun hexact => (hgoesOn hexact).2.trans (hparts (hgoesOn hexact).1)

/-- **A round behind the header.**  The body goes into the sink, and the loop goes on behind
it; where the parser is exact that is the next body of the plain byte string. -/
theorem bodyRound_endsAlike {pending rest : Bytes} {mpp : MpStream} {exact : Prop}
    {parts : Except Fault (ParseResult × Form)} {form : Form} {sink : Sink} {next : Sink → Form}
    (next' : Bytes → Form) (hsize : boundary.length ≤ 1019)
    (h : Stands input length mpp pending rest) (hlimit : room length mpp < 2 ^ 30)
    (hroomy : sink.Roomy) (hempty : sink.outLen = 0)
    (hnext : ∀ body after, Receives sink body after → next after = next' body)
    (hparts : exact → Exact host boundary [] ∧ carriageReturn ∉ pending.dropLast ∧
      parts = match nextBody boundary (pending ++ rest) with
        | none => .ok (.io, form)
        | some (body, stream) => formParts boundary host.temp stream (next' body))
    (again : ∀ {pending' rest' mpp'} form', Stands input length mpp' pending' rest' →
      room length mpp' < room length mpp →
      EndsAlike input length host (Exact host boundary pending')
        (formLoop length boundary host mpp' form')
        (formParts boundary host.temp (pending' ++ rest') form')) :
    EndsAlike input length host exact (bodyRound length boundary host mpp form sink next)
      parts := by
  have hbytes := h.length_le_room
  rw [bodyRound]
  rcases afterNextBoundary_returns (host.heap form.entries.length) hsize h hroomy (by omega) with
    ⟨hrefused, size, hheap⟩ | ⟨outcome, after, pending', rest', hbody, hstands', hfound⟩
  · rw [hrefused]
    exact .refused ⟨_, size, hheap⟩
  · rw [hbody]
    cases outcome with
    | none =>
        refine .returns hstands' fun hexact => ?_
        obtain ⟨hbehaved, hlast, hsame⟩ := hparts hexact
        have hmissing : nextBody boundary (pending ++ rest) = none :=
          hfound hbehaved.no_return hlast
        rw [hsame, hmissing]
    | some filled =>
        refine (again (next filled) hstands' (room_of_afterNextBoundary hbody)).of_continues ?_
        intro hexact
        obtain ⟨hbehaved, hlast, hsame⟩ := hparts hexact
        obtain ⟨hshort, body, hreceives, hnextBody⟩ := hfound hbehaved.no_return hlast
        refine ⟨⟨hbehaved.ample, hbehaved.no_return, hshort⟩, ?_⟩
        rw [hsame, hnextBody, hnext body filled hreceives]

/-- With memory a body is opened as on a plain byte string. -/
theorem openSink_of_ample (h : host.Ample) (temp : TempFile) (i : Nat) (header : PartHeader) :
    openSink temp (host.heap i) header = openSink temp (fun _ => true) header := by
  rw [funext (h i)]

/-- **A round that finds a part** ends as on a plain byte string, if the later rounds do. -/
theorem formLoop_endsAlike_part {pending pending' rest' behind : Bytes}
    {mpp mpp' mpp'' : MpStream} {form : Form} {d0 d1 : UInt8} {header : PartHeader}
    (hsize : boundary.length ≤ 1019) (hlimit : room length mpp < 2 ^ 30)
    (hread : mpRead length mpp 2 = .ok (some [d0, d1], mpp'))
    (hend : ¬ (d0 = hyphen ∧ d1 = hyphen))
    (hheaders : headersLoop length (mpPutBack mpp' [d0, d1]) PartHeader.empty =
      .ok (header, mpp''))
    (hstands : Stands input length mpp'' pending' rest')
    (hscanned : pending.length ≤ 2 → carriageReturn ∉ pending'.dropLast ∧
      scanHeaders PartHeader.empty (d0 :: d1 :: behind) = .ok (header, pending' ++ rest'))
    (again : ∀ {pending rest mpp'} form', Stands input length mpp' pending rest →
      room length mpp' < room length mpp →
      EndsAlike input length host (Exact host boundary pending)
        (formLoop length boundary host mpp' form')
        (formParts boundary host.temp (pending ++ rest) form')) :
    EndsAlike input length host (Exact host boundary pending)
      (formLoop length boundary host mpp form)
      (formParts boundary host.temp (d0 :: d1 :: behind) form) := by
  have hroom : room length mpp' + 2 = room length mpp := room_of_mpRead hread
  have hback : room length (mpPutBack mpp' [d0, d1]) ≤ room length mpp' + 2 :=
    room_mpPutBack_le length mpp' [d0, d1]
  have hless := room_of_headersLoop _ _ hheaders
  have hlater : ∀ {pending rest mpp'} form', Stands input length mpp' pending rest →
      room length mpp' < room length mpp'' →
      EndsAlike input length host (Exact host boundary pending)
        (formLoop length boundary host mpp' form')
        (formParts boundary host.temp (pending ++ rest) form') :=
    fun form' hstands' hfewer => again form' hstands' (by omega)
  have hbehaved : Exact host boundary pending → Exact host boundary [] :=
    fun h => ⟨h.ample, h.no_return, Nat.zero_le 2⟩
  rw [formLoop_eq hread hend hheaders]
  by_cases hform : cgiStrEqNc header.fvalue (text "form-data") = true
  · rw [if_neg (not_not.mpr hform)]
    cases hopen : openSink (host.temp form.uploads) (host.heap form.entries.length) header with
    | error result =>
        refine .returns hstands fun hexact => ?_
        rw [openSink_of_ample hexact.ample] at hopen
        obtain rfl := eq_io_of_openSink hopen
        rw [formParts_eq hend (hscanned hexact.waiting).2]
        cases nextBody boundary (pending' ++ rest') with
        | none => rfl
        | some next => simp only [hform, hopen, not_true_eq_false, if_false]
    | ok opened =>
        obtain ⟨tfileName, sink⟩ := opened
        have hopened := opened_of_openSink hopen
        refine bodyRound_endsAlike (fun body => form.add header tfileName body sink.inFile) hsize
          hstands (by omega) hopened.roomy hopened.empty (fun body after hreceives => ?_)
          (fun hexact => ?_) hlater
        · obtain ⟨hbody, hfile⟩ := hopened.receives body after hreceives
          rw [hbody, hfile]
        · obtain ⟨hlast, hscan⟩ := hscanned hexact.waiting
          rw [openSink_of_ample hexact.ample] at hopen
          refine ⟨hbehaved hexact, hlast, ?_⟩
          rw [formParts_eq hend hscan]
          simp only [hform, hopen, not_true_eq_false, if_false]
  · rw [if_pos hform]
    refine bodyRound_endsAlike (fun _ => form) hsize hstands (by omega) trivial rfl
      (fun _ _ _ => rfl) (fun hexact => ?_) hlater
    obtain ⟨hlast, hscan⟩ := hscanned hexact.waiting
    refine ⟨hbehaved hexact, hlast, ?_⟩
    rw [formParts_eq hend hscan]
    simp only [hform, Bool.false_eq_true, not_false_eq_true, if_true]

/-- **The loop over the parts.**  Behind a boundary it does what the loop on a plain byte
string does. -/
theorem formLoop_of_stands (hsize : boundary.length ≤ 1019)
    {pending rest : Bytes} {mpp : MpStream} (h : Stands input length mpp pending rest)
    (hlimit : room length mpp < 2 ^ 30) (form : Form) :
    EndsAlike input length host (Exact host boundary pending)
      (formLoop length boundary host mpp form)
      (formParts boundary host.temp (pending ++ rest) form) := by
  obtain ⟨got, mpp', hread, hgot, hstands⟩ := mpRead_of_stands h Nat.two_pos
  match hnext : pending ++ rest, hgot with
  | [], hgot | [_], hgot =>
      rw [formLoop_of_short hread (by simp [hgot])]
      refine .returns hstands fun _ => ?_
      rw [formParts.eq_def]
  | d0 :: d1 :: behind, hgot =>
      obtain rfl : got = some [d0, d1] := by
        cases got with
        | none => cases hgot
        | some got => exact congrArg some hgot
      by_cases hend : d0 = hyphen ∧ d1 = hyphen
      · rw [formLoop, hread]
        simp only [if_pos hend]
        refine .returns hstands fun _ => ?_
        rw [formParts, if_pos hend]
      · rcases headersLoop_of_putBack h hstands hnext with
          ⟨hfault, hscan⟩ | ⟨header, mpp'', pending', rest', hheaders, hstands', hscanned⟩
        · rw [formLoop, hread]
          simp only [if_neg hend]
          rw [hfault]
          refine .unexpected fun hexact => ?_
          rw [formParts, if_neg hend, hscan hexact.waiting]
        · exact formLoop_endsAlike_part hsize hlimit hread hend hheaders hstands' hscanned
            fun form' hstands'' hfewer =>
              formLoop_of_stands hsize hstands'' (Nat.lt_trans hfewer hlimit) form'
termination_by room length mpp

end Loop

/-! ## The parser -/

/-- The room at the beginning is the content length. -/
theorem room_freshStream (length : Nat) (cgiIn : Bytes) :
    room length (freshStream cgiIn) = length := by
  simp [room, freshStream]

/-- A negative content length is read into two bytes by the first call. -/
theorem cgiParsePostMultipartInput_negative {cgiContentLength : Int}
    (hnegative : cgiContentLength < 0) {boundary : Bytes} (hsize : boundary.length ≤ 1019)
    (cgiIn : Bytes) (host : Host) :
    cgiParsePostMultipartInput cgiContentLength boundary cgiIn host = .error .negativeRead := by
  have hlength : (delimiter boundary).length = boundary.length + 4 := rfl
  have hoffset : (freshStream cgiIn).offset = 0 := rfl
  have hread : mpReadByte cgiContentLength (freshStream cgiIn) = .error .negativeRead := by
    rw [mpReadByte, mpRead]
    simp only [hoffset, Nat.cast_one]
    rw [if_pos (show cgiContentLength - 0 < 1 by omega),
      if_pos (show cgiContentLength - 0 < 0 by omega)]
    rfl
  have hloop : ∀ workingBoundary : Bytes, boundaryLoop (host.heap 0) cgiContentLength
      workingBoundary (freshStream cgiIn) 0 .discard = .error .negativeRead := by
    intro workingBoundary
    rw [boundaryLoop]
    split
    all_goals
      rename_i hresult
      rw [hread] at hresult
      cases hresult
    rfl
  rw [cgiParsePostMultipartInput, if_neg (by omega)]
  simp only [afterNextBoundary, if_neg (show ¬ 1024 ≤ (delimiter boundary).length by omega),
    hloop]

/-- What the parser may come to for a content length that is not negative: the fault of an
unexpected parameter, a block freed twice when the heap has no larger one, or a result
with no byte taken behind the content length. -/
inductive Parses (length : Nat) (cgiIn : Bytes) (host : Host) :
    Except Fault (ParseResult × Form × MpStream) → Prop
  | unexpected : Parses length cgiIn host (.error .nullStore)
  | refused (hheap : ∃ i size, host.heap i size = false) :
      Parses length cgiIn host (.error .doubleFree)
  | returns (result : ParseResult) (form : Form) {mpp : MpStream} {taken : Nat}
      (hle : taken ≤ length) (hleft : mpp.cgiIn = cgiIn.drop taken) :
      Parses length cgiIn host (.ok (result, form, mpp))

/-- A result on a stream that stands somewhere below the content length. -/
theorem parses_of_stands {length : Nat} {cgiIn pending rest : Bytes} {host : Host}
    {mpp : MpStream} (h : Stands cgiIn length mpp pending rest) (result : ParseResult)
    (form : Form) : Parses length cgiIn host (.ok (result, form, mpp)) := by
  obtain ⟨taken, hstands⟩ := h
  exact .returns result form hstands.taken_le hstands.cgiIn_eq

/-- **No body harms the parser** but by the faults of `Parses`, below 2 ^ 30 bytes.  A
negative content length overruns the two bytes of the first read. -/
theorem cgiParsePostMultipartInput_safe (cgiContentLength : Int) (boundary cgiIn : Bytes)
    (host : Host) (hlimit : cgiContentLength < 2 ^ 30) (hsize : boundary.length ≤ 1019) :
    (cgiContentLength < 0 ∧
      cgiParsePostMultipartInput cgiContentLength boundary cgiIn host = .error .negativeRead) ∨
    ∃ length : Nat, cgiContentLength = length ∧
      Parses length cgiIn host
        (cgiParsePostMultipartInput cgiContentLength boundary cgiIn host) := by
  rcases Int.lt_or_le cgiContentLength 0 with hnegative | hpositive
  · exact .inl ⟨hnegative, cgiParsePostMultipartInput_negative hnegative hsize cgiIn host⟩
  · obtain ⟨length, rfl⟩ := Int.eq_ofNat_of_zero_le hpositive
    refine .inr ⟨length, rfl, ?_⟩
    have hfresh := stands_fresh cgiIn length
    have hroom := room_freshStream length cgiIn
    have hbytes := hfresh.length_le_room
    rw [cgiParsePostMultipartInput]
    by_cases hzero : (length : Int) = 0
    · rw [if_pos hzero]
      exact .returns .success Form.empty (Nat.zero_le _) rfl
    · rw [if_neg hzero]
      have hshort : Sink.discard.outLen + ([] ++ cgiIn.take length).length < 2 ^ 30 := by
        rw [Sink.outLen]
        omega
      have hopening := afterNextBoundary_safe (host.heap 0) hsize hfresh
        (show Sink.discard.Roomy from trivial) hshort true
      rcases hopening with
        ⟨hrefused, size, hheap⟩ | ⟨outcome, mpp, pending, rest, hopened, hstands⟩
      · rw [hrefused]
        exact .refused ⟨0, size, hheap⟩
      · rw [hopened]
        cases outcome with
        | none => exact parses_of_stands hstands _ _
        | some sink =>
            have hless := room_of_afterNextBoundary hopened
            have hloop : EndsAlike cgiIn length host _
                (formLoop length boundary host mpp Form.empty) _ :=
              formLoop_of_stands hsize hstands (by omega) Form.empty
            dsimp only
            generalize formLoop length boundary host mpp Form.empty = loop at hloop
            cases hloop with
            | unexpected => exact .unexpected
            | refused hheap => exact .refused hheap
            | returns hstands' => exact parses_of_stands hstands' _ _

/-- A part with a parameter that the parser does not expect. -/
def sizedPart : Bytes :=
  text "--AaB03x\r\nContent-Disposition: form-data; size=3; name=\"a\"\r\n\r\nb\r\n--AaB03x--"

/-- What becomes of it. -/
theorem cgiParsePostMultipartInput_safe_size :
    ((90 : Int) < 0 ∧
      cgiParsePostMultipartInput 90 (text "AaB03x") sizedPart ⟨fun _ => .failed, fun _ _ => true⟩ =
        .error .negativeRead) ∨
    ∃ length : Nat, (90 : Int) = length ∧
      Parses length sizedPart ⟨fun _ => .failed, fun _ _ => true⟩
        (cgiParsePostMultipartInput 90 (text "AaB03x") sizedPart
          ⟨fun _ => .failed, fun _ _ => true⟩) :=
  cgiParsePostMultipartInput_safe 90 (text "AaB03x") sizedPart _ (by decide) (by decide)

/-- A body with a boundary in it is not empty. -/
theorem length_ne_zero_of_boundary {length : Nat} {boundary cgiIn preamble behind : Bytes}
    (hbody : cgiIn.take length = preamble ++ (hyphen :: hyphen :: boundary) ++ behind) :
    (length : Int) ≠ 0 := by
  intro hzero
  rw [Int.natCast_eq_zero.mp hzero, List.take_zero] at hbody
  simp at hbody

/-- Behind the first boundary the parser does what the loop on a plain byte string
does. -/
theorem parse_behind_boundary {length : Nat} {boundary cgiIn preamble behind stream : Bytes}
    {host : Host} (hhost : host.Ample) (hlimit : length < 2 ^ 30) (hsize : boundary.length ≤ 1019)
    (hreturn : carriageReturn ∉ boundary) (hpreamble : hyphen ∉ preamble)
    (hbody : cgiIn.take length = preamble ++ (hyphen :: hyphen :: boundary) ++ behind)
    (htrailer : afterTrailer behind = some stream) :
    (cgiParsePostMultipartInput length boundary cgiIn host).map
        (fun returned => (returned.1, returned.2.1)) =
      formParts boundary host.temp stream Form.empty := by
  have hfresh := stands_fresh cgiIn length
  rw [hbody] at hfresh
  obtain ⟨mpp, pending, rest, hopened, hstands, htwo, hstream⟩ :=
    openingBoundary_of_stands (host.heap 0) hsize hpreamble hfresh
  obtain rfl := hstream stream htrailer
  rw [htrailer, Option.map_some] at hopened
  have hless := room_of_afterNextBoundary hopened
  rw [room_freshStream] at hless
  have hloop : EndsAlike cgiIn length host (Exact host boundary pending)
      (formLoop length boundary host mpp Form.empty)
      (formParts boundary host.temp (pending ++ rest) Form.empty) :=
    formLoop_of_stands hsize hstands (by omega) Form.empty
  rw [cgiParsePostMultipartInput, if_neg (length_ne_zero_of_boundary hbody), hopened]
  dsimp only
  generalize formLoop length boundary host mpp Form.empty = loop at hloop
  have hexact : Exact host boundary pending := ⟨hhost, hreturn, htwo⟩
  cases hloop with
  | unexpected hparts =>
      rw [hparts hexact]
      rfl
  | refused hheap =>
      obtain ⟨i, size, hrefused⟩ := hheap
      rw [hhost i size] at hrefused
      cases hrefused
  | returns _ hparts =>
      rw [hparts hexact]
      rfl

/-- **Put-back and ring are invisible.**  For a body that begins with its boundary,
behind a preamble without hyphens at most, the parser does what the loop on a plain
byte string does, as long as there is memory and the body has less than 2 ^ 30
bytes. -/
theorem cgiParsePostMultipartInput_agrees (length : Nat) (boundary cgiIn : Bytes)
    (host : Host) (preamble behind : Bytes) (hhost : host.Ample) (hlimit : length < 2 ^ 30)
    (hsize : boundary.length ≤ 1019) (hreturn : carriageReturn ∉ boundary)
    (hpreamble : hyphen ∉ preamble)
    (hbody : cgiIn.take length = preamble ++ (hyphen :: hyphen :: boundary) ++ behind) :
    (cgiParsePostMultipartInput length boundary cgiIn host).map
        (fun returned => (returned.1, returned.2.1)) =
      match afterTrailer behind with
      | none => .ok (.success, Form.empty)
      | some stream => formParts boundary host.temp stream Form.empty := by
  cases htrailer : afterTrailer behind with
  | some stream =>
      exact parse_behind_boundary hhost hlimit hsize hreturn hpreamble hbody htrailer
  | none =>
      have hfresh := stands_fresh cgiIn length
      rw [hbody] at hfresh
      obtain ⟨mpp, pending, rest, hopened, -, -, -⟩ :=
        openingBoundary_of_stands (host.heap 0) hsize hpreamble hfresh
      rw [htrailer, Option.map_none] at hopened
      rw [cgiParsePostMultipartInput, if_neg (length_ne_zero_of_boundary hbody), hopened]
      rfl

/-- A field whose value ends with a carriage return. -/
def returnField : Bytes :=
  text "\r\nContent-Disposition: form-data; name=\"a\"\r\n\r\nb\r\r\n--AaB03x--\r\n"

/-- The value comes out with its carriage return. -/
theorem cgiParsePostMultipartInput_agrees_field :
    (cgiParsePostMultipartInput (200 : Nat) (text "AaB03x") (text "--AaB03x" ++ returnField)
        ⟨fun _ => .failed, fun _ _ => true⟩).map (fun returned => (returned.1, returned.2.1)) =
      match afterTrailer returnField with
      | none => .ok (.success, Form.empty)
      | some stream => formParts (text "AaB03x") (fun _ => .failed) stream Form.empty :=
  cgiParsePostMultipartInput_agrees 200 (text "AaB03x") (text "--AaB03x" ++ returnField)
    ⟨fun _ => .failed, fun _ _ => true⟩ [] returnField (fun _ _ => rfl) (by decide) (by decide)
    (by decide) (by decide) (by decide)

end Multipart
