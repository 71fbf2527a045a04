import BlockstreamStation.MultipartBodies

/-!
# Headers of parts

The header lines of a part, as `readHeaderLine` and `decomposeValue` of `cgic.c`
read them.  A line is an attribute, a colon and a value; white space in the
attribute and behind a colon is left out.  The test for a colon comes before the
test for being in the value already, so that the value loses its colons too, and
what white space stands behind them.

`headerLoop_of_stands` connects the reader to `scanHeader`, the same scan on a
plain byte string.
-/

namespace Multipart

open CText

def colon : UInt8 := 58

def semicolon : UInt8 := 59

def quote : UInt8 := 34

/-! ## Characters -/

def isAlpha (byte : UInt8) : Bool := (65 ≤ byte && byte ≤ 90) || (97 ≤ byte && byte ≤ 122)

def isAlnum (byte : UInt8) : Bool := isAlpha byte || (48 ≤ byte && byte ≤ 57)

def toLower (byte : UInt8) : UInt8 := if 65 ≤ byte ∧ byte ≤ 90 then byte + 32 else byte

/-- `cgiStrEqNc`. -/
def cgiStrEqNc : Bytes → Bytes → Bool
  | [], [] => true
  | [], _ :: _ => false
  | _ :: _, [] => false
  | a :: s1, b :: s2 =>
      if isAlpha a then
        if toLower a ≠ toLower b then false else cgiStrEqNc s1 s2
      else if a ≠ b then false
      else cgiStrEqNc s1 s2

/-! ## The lines -/

/-- The loop behind a colon. -/
def skipSpaces (cgiContentLength : Int) (mpp : MpStream) : Except Fault MpStream :=
  match _hread : mpReadByte cgiContentLength mpp with
  | .error fault => .error fault
  | .ok (none, mpp') => .ok mpp'
  | .ok (some d, mpp') =>
      if ¬ isSpace d then .ok (mpPutBack mpp' [d]) else skipSpaces cgiContentLength mpp'
termination_by room cgiContentLength mpp
decreasing_by
  have hroom := room_of_mpReadByte _hread
  simp only [Option.toList_some, List.length_singleton] at hroom
  omega

/-- What `readHeaderLine` returns at the end of a line. -/
def headerLine (attr value : Bytes) : Option (Bytes × Bytes) :=
  if attr ≠ [] ∧ value ≠ [] then some (attr, value) else none

/-- Skipping white space takes bytes and gives none back. -/
theorem room_of_skipSpaces {cgiContentLength : Int} {mpp' : MpStream} (mpp : MpStream)
    (h : skipSpaces cgiContentLength mpp = .ok mpp') :
    room cgiContentLength mpp' ≤ room cgiContentLength mpp := by
  rw [skipSpaces] at h
  split at h
  · cases h
  · rename_i hread
    cases h
    exact Nat.le_of_add_right_le (room_of_mpReadByte hread)
  · rename_i d mpp'' hread
    have hroom := room_of_mpReadByte hread
    have hback := room_mpPutBack_le cgiContentLength mpp'' [d]
    simp only [Option.toList_some, List.length_singleton] at hroom hback
    split at h
    · cases h
      omega
    · have hagain := room_of_skipSpaces mpp'' h
      omega
termination_by room cgiContentLength mpp

/-- The loop of `readHeaderLine`.  The line, or `none` where the function returns 0. -/
def headerLoop (cgiContentLength : Int) (attrSpace valueSpace : Nat) (mpp : MpStream)
    (attr value : Bytes) (valueFound : Bool) :
    Except Fault (Option (Bytes × Bytes) × MpStream) :=
  match _hread : mpReadByte cgiContentLength mpp with
  | .error fault => .error fault
  | .ok (none, mpp') => .ok (none, mpp')
  | .ok (some d, mpp') =>
      if d = carriageReturn then
        match mpReadByte cgiContentLength mpp' with
        | .error fault => .error fault
        | .ok (none, mpp'') => .ok (headerLine attr value, mpp'')
        | .ok (some d, mpp'') =>
            .ok (headerLine attr value, if d = newline then mpp'' else mpPutBack mpp'' [d])
      else if d = newline then .ok (headerLine attr value, mpp')
      else if d = colon ∧ attr ≠ [] then
        match _hskip : skipSpaces cgiContentLength mpp' with
        | .error fault => .error fault
        | .ok mpp'' => headerLoop cgiContentLength attrSpace valueSpace mpp'' attr value true
      else if ¬ valueFound then
        let attr := if ¬ isSpace d ∧ attr.length < attrSpace - 1 then attr ++ [d] else attr
        headerLoop cgiContentLength attrSpace valueSpace mpp' attr value valueFound
      else
        let value := if value.length < valueSpace - 1 then value ++ [d] else value
        headerLoop cgiContentLength attrSpace valueSpace mpp' attr value valueFound
termination_by room cgiContentLength mpp
decreasing_by
  all_goals
    have hroom := room_of_mpReadByte _hread
    simp only [Option.toList_some, List.length_singleton] at hroom
  · have hskip := room_of_skipSpaces _ _hskip
    omega
  · omega
  · omega

/-- The same scan of a plain byte string; `skipping` is being behind a colon. -/
def scanHeader (attrSpace valueSpace : Nat) :
    Bool → Bytes → Bytes → Bool → Bytes → Option (Bytes × Bytes) × Bytes
  | _, _, _, _, [] => (none, [])
  | skipping, attr, value, valueFound, d :: rest =>
      if skipping ∧ isSpace d then scanHeader attrSpace valueSpace true attr value valueFound rest
      else if d = carriageReturn then
        (headerLine attr value, if rest.head? = some newline then rest.tail else rest)
      else if d = newline then (headerLine attr value, rest)
      else if d = colon ∧ attr ≠ [] then
        scanHeader attrSpace valueSpace true attr value true rest
      else if ¬ valueFound then
        scanHeader attrSpace valueSpace false
          (if ¬ isSpace d ∧ attr.length < attrSpace - 1 then attr ++ [d] else attr)
          value valueFound rest
      else
        scanHeader attrSpace valueSpace false attr
          (if value.length < valueSpace - 1 then value ++ [d] else value) valueFound rest

/-- Where white space is skipped the scan goes on behind it. -/
theorem scanHeader_skipping (attrSpace valueSpace : Nat) (attr value : Bytes) (valueFound : Bool)
    (stream : Bytes) :
    scanHeader attrSpace valueSpace true attr value valueFound stream =
      scanHeader attrSpace valueSpace false attr value valueFound (stream.dropWhile isSpace) := by
  induction stream with
  | nil => rfl
  | cons d rest ih =>
      cases hspace : isSpace d with
      | true => rw [scanHeader, if_pos ⟨rfl, hspace⟩, ih, List.dropWhile_cons_of_pos hspace]
      | false =>
          rw [List.dropWhile_cons_of_neg (by simp [hspace])]
          simp only [scanHeader, hspace, Bool.false_eq_true, and_false, if_false]

section Lines

variable {input : Bytes} {length : Nat}

/-- On the stream, `skipSpaces` drops the white space; the byte behind it is put back and
waits in the ring. -/
theorem skipSpaces_of_stands {pending rest : Bytes} {mpp : MpStream}
    (h : Stands input length mpp pending rest) :
    ∃ mpp' pending' rest', skipSpaces length mpp = .ok mpp' ∧
      Stands input length mpp' pending' rest' ∧
      (pending = [] → pending'.length ≤ 1 ∧ pending' ++ rest' = rest.dropWhile isSpace) := by
  rw [skipSpaces]
  cases hnext : pending ++ rest with
  | nil =>
      obtain ⟨rfl, rfl⟩ := List.append_eq_nil_iff.mp hnext
      obtain ⟨mpp', hread, hstands⟩ := mpReadByte_of_end h
      rw [hread]
      exact ⟨mpp', [], [], rfl, hstands, fun _ => ⟨Nat.zero_le 1, rfl⟩⟩
  | cons d behind =>
      obtain ⟨mpp', hread, hstands⟩ := mpReadByte_of_stands h hnext
      have hbehind := drop_pending hnext
      have hrest : pending = [] → rest = d :: behind ∧ pending.drop 1 = [] ∧
          rest.drop (1 - pending.length) = behind := by
        intro hnil
        rw [hnil] at hnext hbehind ⊢
        exact ⟨hnext, rfl, hbehind⟩
      rw [hread]
      cases hspace : isSpace d with
      | true =>
          simp only [hspace, not_true_eq_false, if_false]
          obtain ⟨mpp'', pending', rest', hskip, hstands', hexact⟩ := skipSpaces_of_stands hstands
          refine ⟨mpp'', pending', rest', hskip, hstands', fun hnil => ?_⟩
          obtain ⟨hcons, hdrop, hlater⟩ := hrest hnil
          rw [hcons, List.dropWhile_cons_of_pos hspace, ← hlater]
          exact hexact hdrop
      | false =>
          have hwaiting := h.length_pending_lt
          have hback := mpPutBack_of_stands hstands [d]
            (by
              simp only [List.length_drop, List.length_singleton, putbackSize] at hwaiting ⊢
              omega)
          simp only [hspace, Bool.false_eq_true, not_false_eq_true, if_true]
          refine ⟨_, _, _, rfl, hback, fun hnil => ?_⟩
          obtain ⟨hcons, hdrop, hlater⟩ := hrest hnil
          rw [hdrop, hlater, hcons, List.dropWhile_cons_of_neg (by simp [hspace])]
          exact ⟨Nat.le_refl 1, rfl⟩
termination_by (pending ++ rest).length
decreasing_by
  rw [hnext, hbehind, List.length_cons]
  exact Nat.lt_succ_self _

/-- Behind a carriage return a newline is taken, and any other byte is put back. -/
theorem lineBreak_of_stands {pending rest : Bytes} {mpp : MpStream}
    (h : Stands input length mpp pending rest) :
    (∃ mpp', mpReadByte length mpp = .ok (none, mpp') ∧ Stands input length mpp' [] [] ∧
      pending ++ rest = []) ∨
    ∃ b mpp' pending' rest', mpReadByte length mpp = .ok (some b, mpp') ∧
      Stands input length (if b = newline then mpp' else mpPutBack mpp' [b]) pending' rest' ∧
      (pending.length ≤ 1 → pending'.length ≤ 1 ∧ pending' ++ rest' =
        if (pending ++ rest).head? = some newline then (pending ++ rest).tail
        else pending ++ rest) := by
  cases hnext : pending ++ rest with
  | nil =>
      obtain ⟨rfl, rfl⟩ := List.append_eq_nil_iff.mp hnext
      obtain ⟨mpp', hread, hstands⟩ := mpReadByte_of_end h
      exact .inl ⟨mpp', hread, hstands, rfl⟩
  | cons b behind =>
      obtain ⟨mpp', hread, hstands⟩ := mpReadByte_of_stands h hnext
      have hbehind := drop_pending hnext
      have hwaiting := h.length_pending_lt
      by_cases hb : b = newline
      · refine .inr ⟨b, mpp', _, _, hread, by rw [if_pos hb]; exact hstands, fun hone => ⟨?_, ?_⟩⟩
        · rw [List.length_drop]
          omega
        · rw [hbehind, List.head?_cons, hb, if_pos rfl, List.tail_cons]
      · have hback := mpPutBack_of_stands hstands [b]
          (by simp only [List.length_drop, List.length_singleton, putbackSize] at *; omega)
        refine .inr ⟨b, mpp', _, _, hread, by rw [if_neg hb]; exact hback, fun hone => ?_⟩
        have hempty : pending.drop 1 = [] := List.drop_eq_nil_of_le hone
        rw [hempty, List.nil_append] at hbehind ⊢
        rw [hbehind, List.head?_cons, if_neg (by simpa using hb)]
        exact ⟨Nat.le_refl 1, rfl⟩

/-- **The header reader on a stream** reads what the scan reads.  Two bytes may wait
in the ring when the line begins, one behind its first byte: a byte put back then
comes in its place. -/
theorem headerLoop_of_stands (attrSpace valueSpace : Nat) {pending rest : Bytes} {mpp : MpStream}
    (h : Stands input length mpp pending rest) (attr value : Bytes) (valueFound : Bool) :
    ∃ outcome mpp' pending' rest',
      headerLoop length attrSpace valueSpace mpp attr value valueFound = .ok (outcome, mpp') ∧
      Stands input length mpp' pending' rest' ∧
      (pending.length ≤ 2 → (attr ≠ [] → pending.length ≤ 1) → pending'.length ≤ 1 ∧
        (outcome, pending' ++ rest') =
          scanHeader attrSpace valueSpace false attr value valueFound (pending ++ rest)) := by
  rw [headerLoop]
  cases hnext : pending ++ rest with
  | nil =>
      obtain ⟨rfl, rfl⟩ := List.append_eq_nil_iff.mp hnext
      obtain ⟨mpp', hread, hstands⟩ := mpReadByte_of_end h
      rw [hread]
      exact ⟨none, mpp', [], [], rfl, hstands, fun _ _ => ⟨Nat.zero_le 1, rfl⟩⟩
  | cons d behind =>
      obtain ⟨mpp', hread, hstands⟩ := mpReadByte_of_stands h hnext
      have hbehind := drop_pending hnext
      have hroom : room length mpp' + 1 ≤ room length mpp := room_of_mpReadByte hread
      have hpending : (pending.drop 1).length = pending.length - 1 := List.length_drop
      simp only [scanHeader, Bool.false_eq_true, false_and, if_false]
      rw [hread]
      by_cases hreturn : d = carriageReturn
      · simp only [if_pos hreturn]
        have hbreak := lineBreak_of_stands hstands
        rw [hbehind] at hbreak
        rcases hbreak with
          ⟨after, hlast, hstands', rfl⟩ | ⟨b, after, pending', rest', hlast, hstands', hline⟩
        · rw [hlast]
          exact ⟨_, after, [], [], rfl, hstands', fun _ _ => ⟨Nat.zero_le 1, rfl⟩⟩
        · rw [hlast]
          refine ⟨headerLine attr value, _, pending', rest', rfl, hstands', fun htwo _ => ?_⟩
          obtain ⟨hlength, hrest⟩ := hline (by omega)
          exact ⟨hlength, by rw [hrest]⟩
      · by_cases hnewline : d = newline
        · simp only [if_neg hreturn, if_pos hnewline]
          refine ⟨_, mpp', _, _, rfl, hstands, fun htwo _ => ⟨?_, by rw [hbehind]⟩⟩
          rw [List.length_drop]
          omega
        · by_cases hcolon : d = colon ∧ attr ≠ []
          · obtain ⟨mpp'', pending', rest', hskip, hstands', hexact⟩ := skipSpaces_of_stands hstands
            have hless := room_of_skipSpaces mpp' hskip
            obtain ⟨outcome, after, pending'', rest'', hloop, hstands'', hscan⟩ :=
              headerLoop_of_stands attrSpace valueSpace hstands' attr value true
            simp only [if_neg hreturn, if_neg hnewline, if_pos hcolon]
            refine ⟨outcome, after, pending'', rest'', ?_, hstands'', fun _ hone => ?_⟩
            · rw [hskip]
              exact hloop
            · have hempty : pending.drop 1 = [] := List.drop_eq_nil_of_le (hone hcolon.2)
              obtain ⟨hlength', hspaces⟩ := hexact hempty
              rw [hempty, List.nil_append] at hbehind
              rw [scanHeader_skipping, ← hbehind, ← hspaces]
              exact hscan (by omega) (fun _ => hlength')
          · simp only [if_neg hreturn, if_neg hnewline, if_neg hcolon]
            -- a byte of the name, or of the value once a colon was found
            cases valueFound with
            | false =>
                simp only [Bool.false_eq_true, not_false_eq_true, if_true]
                obtain ⟨outcome, after, pending', rest', hloop, hstands', hscan⟩ :=
                  headerLoop_of_stands attrSpace valueSpace hstands
                    (if ¬ isSpace d ∧ attr.length < attrSpace - 1 then attr ++ [d] else attr)
                    value false
                rw [hbehind] at hscan
                exact ⟨outcome, after, pending', rest', hloop, hstands', fun htwo _ =>
                  hscan (by omega) (fun _ => by omega)⟩
            | true =>
                simp only [not_true_eq_false, if_false]
                obtain ⟨outcome, after, pending', rest', hloop, hstands', hscan⟩ :=
                  headerLoop_of_stands attrSpace valueSpace hstands attr
                    (if value.length < valueSpace - 1 then value ++ [d] else value) true
                rw [hbehind] at hscan
                exact ⟨outcome, after, pending', rest', hloop, hstands', fun htwo _ =>
                  hscan (by omega) (fun _ => by omega)⟩
termination_by room length mpp
decreasing_by all_goals omega

end Lines

/-! ## The values -/

/-- A value in `decomposeValue`, quoted or up to the next semicolon, stored into
`space` bytes, and what stands behind it. -/
def readValue (space : Nat) : Bytes → Bytes × Bytes
  | 34 :: value =>
      ((value.takeWhile (· != quote)).take (space - 1),
        (value.dropWhile (· != quote)).dropWhile (· != semicolon))
  | value => ((value.takeWhile (· != semicolon)).take (space - 1),
      value.dropWhile (· != semicolon))

/-- The value of a parameter is no longer than what is left of the line. -/
theorem length_readValue_le (space : Nat) (value : Bytes) :
    (readValue space value).2.length ≤ value.length := by
  rw [readValue.eq_def]
  split
  · rename_i value
    have hquote := (List.dropWhile_suffix (l := value) (· != quote)).length_le
    have hend := (List.dropWhile_suffix
      (l := value.dropWhile (· != quote)) (· != semicolon)).length_le
    simp only [List.length_cons]
    omega
  · exact (List.dropWhile_suffix _).length_le

/-- A round of `decomposeLoop` that finds a parameter leaves less of the line. -/
theorem length_argument_lt (space : Nat) {rest behind : Bytes}
    (h : ((rest.dropWhile isSpace).dropWhile isAlnum).dropWhile isSpace = 61 :: behind) :
    (readValue space (behind.dropWhile isSpace)).2.length < (59 :: rest).length := by
  have hvalue := length_readValue_le space (behind.dropWhile isSpace)
  have hbehind := (List.dropWhile_suffix (l := behind) isSpace).length_le
  have hspace := (List.dropWhile_suffix (l := rest) isSpace).length_le
  have halnum := (List.dropWhile_suffix (l := rest.dropWhile isSpace) isAlnum).length_le
  have hafter := (List.dropWhile_suffix
    (l := (rest.dropWhile isSpace).dropWhile isAlnum) isSpace).length_le
  rw [h] at hafter
  simp only [List.length_cons] at hafter ⊢
  omega

/-- The loop of `decomposeValue` over the parameters.  A parameter that is not among
`argNames` leaves `argValue` null, and its terminator is stored all the same. -/
def decomposeLoop (argNames : List Bytes) (argValueSpace : Nat) (value : Bytes)
    (argValues : List Bytes) : Except Fault (List Bytes) :=
  match value with
  | 59 :: rest =>
      let value := rest.dropWhile isSpace
      let argName := (value.takeWhile isAlnum).take 1023
      match _hequals : (value.dropWhile isAlnum).dropWhile isSpace with
      | 61 :: behind =>
          let argument := readValue argValueSpace (behind.dropWhile isSpace)
          if argValueSpace = 0 then decomposeLoop argNames argValueSpace argument.2 argValues
          else
            match argNames.findIdx? (cgiStrEqNc argName) with
            | none => .error .nullStore
            | some argNum =>
                decomposeLoop argNames argValueSpace argument.2
                  (argValues.set argNum argument.1)
      | _ => .ok argValues
  | _ => .ok argValues
termination_by value.length
decreasing_by all_goals exact length_argument_lt _ _hequals

/-- `decomposeValue`: `mvalue` and `argValues`. -/
def decomposeValue (value : Bytes) (mvalueSpace : Nat) (argNames : List Bytes)
    (argValueSpace : Nat) : Except Fault (Bytes × List Bytes) :=
  let mvalue := readValue mvalueSpace (value.dropWhile isSpace)
  (decomposeLoop argNames argValueSpace mvalue.2 (argNames.map fun _ => [])).map
    fun argValues => (mvalue.1, argValues)

/-- The strings `cgiParsePostMultipartInput` collects from the header of a part. -/
structure PartHeader where
  fvalue : Bytes
  fname : Bytes
  ffileName : Bytes
  fcontentType : Bytes
deriving DecidableEq, Repr

/-- What a header line changes. -/
def PartHeader.line (header : PartHeader) (attr value : Bytes) : Except Fault PartHeader :=
  if cgiStrEqNc (cstr attr) (text "Content-Disposition") then
    (decomposeValue (cstr value) 1024 [text "name", text "filename"] 1024).map fun decomposed =>
      { header with
        fvalue := decomposed.1
        fname := decomposed.2.getD 0 []
        ffileName := decomposed.2.getD 1 [] }
  else if cgiStrEqNc (cstr attr) (text "Content-Type") then
    (decomposeValue (cstr value) 1024 [] 0).map fun decomposed =>
      { header with fcontentType := decomposed.1 }
  else .ok header

/-- A header line takes at least one byte more than the loop puts back. -/
theorem room_of_headerLoop {cgiContentLength : Int} {attrSpace valueSpace : Nat}
    {outcome : Option (Bytes × Bytes)} {after : MpStream} (mpp : MpStream) (attr value : Bytes)
    (valueFound : Bool)
    (h : headerLoop cgiContentLength attrSpace valueSpace mpp attr value valueFound =
      .ok (outcome, after)) :
    room cgiContentLength after + outcome.toList.length ≤ room cgiContentLength mpp := by
  have hline : (headerLine attr value).toList.length ≤ 1 := by
    cases headerLine attr value <;> simp
  rw [headerLoop] at h
  split at h
  · cases h
  · rename_i hread
    cases h
    exact Nat.le_of_add_right_le (room_of_mpReadByte hread)
  · rename_i d mpp' hread
    have hroom : room cgiContentLength mpp' + 1 ≤ room cgiContentLength mpp :=
      room_of_mpReadByte hread
    split_ifs at h
    · split at h
      · cases h
      · rename_i hend
        have hroom' := room_of_mpReadByte hend
        cases h
        omega
      · rename_i b mpp'' hbyte
        have hroom' : room cgiContentLength mpp'' + 1 ≤ room cgiContentLength mpp' :=
          room_of_mpReadByte hbyte
        have hback := room_mpPutBack_le cgiContentLength mpp'' [b]
        rw [List.length_singleton] at hback
        cases h
        split <;> omega
    · cases h
      omega
    · split at h
      · cases h
      · rename_i mpp'' hskip
        have hroom' := room_of_skipSpaces mpp' hskip
        have hagain := room_of_headerLoop mpp'' _ _ _ h
        omega
    all_goals
      have hagain := room_of_headerLoop mpp' _ _ _ h
      omega
termination_by room cgiContentLength mpp

/-- The loop over the header lines of a part. -/
def headersLoop (cgiContentLength : Int) (mpp : MpStream) (header : PartHeader) :
    Except Fault (PartHeader × MpStream) :=
  match _hline : headerLoop cgiContentLength 1024 1024 mpp [] [] false with
  | .error fault => .error fault
  | .ok (none, mpp') => .ok (header, mpp')
  | .ok (some (attr, value), mpp') =>
      match header.line attr value with
      | .error fault => .error fault
      | .ok header => headersLoop cgiContentLength mpp' header
termination_by room cgiContentLength mpp
decreasing_by
  have hroom := room_of_headerLoop mpp _ _ _ _hline
  simp only [Option.toList_some, List.length_singleton] at hroom
  omega

/-- So do the header lines of a part together. -/
theorem room_of_headersLoop {cgiContentLength : Int} {header' : PartHeader} {after : MpStream}
    (mpp : MpStream) (header : PartHeader)
    (h : headersLoop cgiContentLength mpp header = .ok (header', after)) :
    room cgiContentLength after ≤ room cgiContentLength mpp := by
  rw [headersLoop] at h
  split at h
  · cases h
  · rename_i hline
    cases h
    exact Nat.le_of_add_right_le (room_of_headerLoop mpp _ _ _ hline)
  · rename_i attr value mpp' hline
    have hroom : room cgiContentLength mpp' + 1 ≤ room cgiContentLength mpp :=
      room_of_headerLoop mpp _ _ _ hline
    split at h
    · cases h
    · have hagain := room_of_headersLoop mpp' _ h
      omega
termination_by room cgiContentLength mpp

/-- On byte strings, a header line that is found takes at least one byte. -/
theorem length_scanHeader (attrSpace valueSpace : Nat) (stream : Bytes) :
    ∀ (skipping : Bool) (attr value : Bytes) (valueFound : Bool),
      (scanHeader attrSpace valueSpace skipping attr value valueFound stream).2.length +
          (scanHeader attrSpace valueSpace skipping attr value valueFound stream).1.toList.length ≤
        stream.length := by
  induction stream with
  | nil => intro _ _ _ _; rfl
  | cons d rest ih =>
      intro skipping attr value valueFound
      have hline : (headerLine attr value).toList.length ≤ 1 := by
        cases headerLine attr value <;> simp
      have htail := List.length_tail (l := rest)
      have hagain := fun skipping attr value valueFound =>
        Nat.le_succ_of_le (ih skipping attr value valueFound)
      rw [scanHeader, List.length_cons]
      split_ifs
      all_goals
        first
        | exact hagain _ _ _ _
        | (dsimp only; omega)

/-- The header lines of a part on a plain byte string. -/
def scanHeaders (header : PartHeader) (stream : Bytes) : Except Fault (PartHeader × Bytes) :=
  match _hline : scanHeader 1024 1024 false [] [] false stream with
  | (none, rest) => .ok (header, rest)
  | (some (attr, value), rest) =>
      match header.line attr value with
      | .error fault => .error fault
      | .ok header => scanHeaders header rest
termination_by stream.length
decreasing_by
  have hlength := length_scanHeader 1024 1024 stream false [] [] false
  rw [_hline] at hlength
  exact hlength

/-- On byte strings, the header lines of a part leave no more than there was. -/
theorem length_scanHeaders {header' : PartHeader} {rest : Bytes} (header : PartHeader)
    (stream : Bytes) (h : scanHeaders header stream = .ok (header', rest)) :
    rest.length ≤ stream.length := by
  rw [scanHeaders] at h
  split at h
  · rename_i hline
    have hlength := length_scanHeader 1024 1024 stream false [] [] false
    rw [hline] at hlength
    cases h
    exact Nat.le_of_add_right_le hlength
  · rename_i attr value behind hline
    have hlength := length_scanHeader 1024 1024 stream false [] [] false
    rw [hline] at hlength
    have hshorter : behind.length + 1 ≤ stream.length := hlength
    split at h
    · cases h
    · have hagain := length_scanHeaders _ behind h
      omega
termination_by stream.length

/-- The only fault of a header is a parameter that is not expected. -/
theorem decomposeLoop_fault {argNames : List Bytes} {argValueSpace : Nat} {fault : Fault}
    (value : Bytes) (argValues : List Bytes)
    (h : decomposeLoop argNames argValueSpace value argValues = .error fault) :
    fault = .nullStore := by
  rw [decomposeLoop.eq_def] at h
  split at h
  · rename_i rest
    dsimp only at h
    split at h
    · rename_i behind hequals
      have hshorter := length_argument_lt argValueSpace hequals
      split at h
      · exact decomposeLoop_fault _ _ h
      · split at h
        · exact (Except.error.inj h).symm
        · exact decomposeLoop_fault _ _ h
    · cases h
  · cases h
termination_by value.length

/-- A map does not change the fault. -/
theorem error_of_map {α β : Type} {f : α → β} {result : Except Fault α} {fault : Fault}
    (h : result.map f = .error fault) : result = .error fault := by
  cases result with
  | error fault' => exact congrArg Except.error (Except.error.inj h)
  | ok _ => cases h

/-- The only fault of a header line is the store for a parameter that is not expected. -/
theorem PartHeader.line_fault {header : PartHeader} {attr value : Bytes} {fault : Fault}
    (h : header.line attr value = .error fault) : fault = .nullStore := by
  rw [PartHeader.line] at h
  split at h
  · exact decomposeLoop_fault _ _ (error_of_map (error_of_map h))
  · split at h
    · exact decomposeLoop_fault _ _ (error_of_map (error_of_map h))
    · cases h

section Headers

variable {input : Bytes} {length : Nat}

/-- **The header of a part.**  The reader meets no fault but an unexpected parameter,
and behind a boundary it reads what the scan of a plain byte string reads. -/
theorem headersLoop_of_stands {pending rest : Bytes} {mpp : MpStream}
    (h : Stands input length mpp pending rest) (header : PartHeader) :
    (headersLoop length mpp header = .error .nullStore ∧
      (pending.length ≤ 2 → scanHeaders header (pending ++ rest) = .error .nullStore)) ∨
    ∃ header' mpp' pending' rest', headersLoop length mpp header = .ok (header', mpp') ∧
      Stands input length mpp' pending' rest' ∧
      (pending.length ≤ 2 → pending'.length ≤ 1 ∧
        scanHeaders header (pending ++ rest) = .ok (header', pending' ++ rest')) := by
  obtain ⟨outcome, mpp', pending', rest', hloop, hstands, hscan⟩ :=
    headerLoop_of_stands 1024 1024 h [] [] false
  have hroom := room_of_headerLoop mpp _ _ _ hloop
  replace hscan := fun htwo => hscan htwo (fun hne => absurd rfl hne)
  rw [headersLoop]
  cases outcome with
  | none =>
      refine .inr ⟨header, mpp', pending', rest', ?_, hstands, fun htwo => ?_⟩
      · rw [hloop]
      · obtain ⟨hone, hsame⟩ := hscan htwo
        rw [scanHeaders, ← hsame]
        exact ⟨hone, rfl⟩
  | some line =>
      obtain ⟨attr, value⟩ := line
      rw [hloop]
      cases hline : header.line attr value with
      | error fault =>
          obtain rfl := PartHeader.line_fault hline
          refine .inl ⟨?_, fun htwo => ?_⟩
          · simp only [hline]
          · rw [scanHeaders, ← (hscan htwo).2]
            simp only [hline]
      | ok header' =>
          simp only [hline]
          rcases headersLoop_of_stands hstands header' with
            ⟨hfault, hexact⟩ | ⟨header'', mpp'', pending'', rest'', hread, hstands', hexact⟩
          · refine .inl ⟨hfault, fun htwo => ?_⟩
            obtain ⟨hone, hsame⟩ := hscan htwo
            rw [scanHeaders, ← hsame]
            simp only [hline]
            exact hexact (by omega)
          · refine .inr ⟨header'', mpp'', pending'', rest'', hread, hstands', fun htwo => ?_⟩
            obtain ⟨hone, hsame⟩ := hscan htwo
            rw [scanHeaders, ← hsame]
            simp only [hline]
            exact hexact (by omega)
termination_by room length mpp
decreasing_by
  simp only [Option.toList_some, List.length_singleton] at hroom
  omega

end Headers

end Multipart
