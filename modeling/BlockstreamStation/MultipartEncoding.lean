import BlockstreamStation.MultipartForm
import Mathlib.Data.Bool.AllAny

/-!
# Forms as a browser submits them

The other direction of the multipart parser: a form is written as a browser writes it,
one part for each field and file, and read back.

* `scanHeader_line`, `decomposeLoop_parameter`: a header line and a quoted parameter are
  read as they were written;
* `formParts_partsText`: the parts of a form become its entries, one by one;
* `cgiParsePostMultipartInput_encodeForm`: entries and temporary files give the form back.
-/

namespace Multipart

open CText PatternSplit

/-! ## Header lines -/

/-- A byte of the name of a header line. -/
def NameByte (byte : UInt8) : Prop := isSpace byte = false ∧ byte ≠ colon

/-- A byte that is kept in the value of a header line: behind a colon white space is
lost, and the value ends at a NUL. -/
def ValueByte (byte : UInt8) : Prop :=
  byte ≠ carriageReturn ∧ byte ≠ newline ∧ byte ≠ colon ∧ byte ≠ 0

/-- A byte of a quoted parameter. -/
def QuotedByte (byte : UInt8) : Prop := ValueByte byte ∧ byte ≠ quote

/-- A byte of a media type without parameters. -/
def MediaByte (byte : UInt8) : Prop :=
  QuotedByte byte ∧ isSpace byte = false ∧ byte ≠ semicolon

instance : DecidablePred NameByte := fun _ => inferInstanceAs (Decidable (_ ∧ _))

instance : DecidablePred ValueByte := fun _ => inferInstanceAs (Decidable (_ ∧ _))

instance : DecidablePred QuotedByte := fun _ => inferInstanceAs (Decidable (_ ∧ _))

instance : DecidablePred MediaByte := fun _ => inferInstanceAs (Decidable (_ ∧ _))

section Lines

variable {attrSpace valueSpace : Nat}

/-- The bytes of a name are collected. -/
theorem scanHeader_name {name : Bytes} (hname : ∀ byte ∈ name, NameByte byte) (rest : Bytes) :
    ∀ attr : Bytes, (attr ++ name).length < attrSpace →
      scanHeader attrSpace valueSpace false attr [] false (name ++ rest) =
        scanHeader attrSpace valueSpace false (attr ++ name) [] false rest := by
  induction name with
  | nil => intro attr _; rw [List.append_nil, List.nil_append]
  | cons d name ih =>
      intro attr hlength
      obtain ⟨hspace, hcolon⟩ := hname d List.mem_cons_self
      have hreturn : d ≠ carriageReturn := by rintro rfl; cases hspace
      have hnewline : d ≠ newline := by rintro rfl; cases hspace
      have hroom : attr.length < attrSpace - 1 := by
        rw [List.length_append, List.length_cons] at hlength
        omega
      rw [List.append_cons] at hlength ⊢
      rw [← ih (fun byte hbyte => hname byte (List.mem_cons_of_mem d hbyte)) _ hlength,
        List.cons_append, scanHeader]
      simp only [Bool.false_eq_true, false_and, if_false, if_neg hreturn, if_neg hnewline, hcolon,
        not_false_eq_true, if_true, hspace, true_and, if_pos hroom]

/-- So are the bytes of a value, behind the colon. -/
theorem scanHeader_value {attr value : Bytes} (hvalue : ∀ byte ∈ value, ValueByte byte)
    (rest : Bytes) :
    ∀ before : Bytes, (before ++ value).length < valueSpace →
      scanHeader attrSpace valueSpace false attr before true (value ++ rest) =
        scanHeader attrSpace valueSpace false attr (before ++ value) true rest := by
  induction value with
  | nil => intro before _; rw [List.append_nil, List.nil_append]
  | cons d value ih =>
      intro before hlength
      obtain ⟨hreturn, hnewline, hcolon, -⟩ := hvalue d List.mem_cons_self
      have hroom : before.length < valueSpace - 1 := by
        rw [List.length_append, List.length_cons] at hlength
        omega
      rw [List.append_cons] at hlength ⊢
      rw [← ih (fun byte hbyte => hvalue byte (List.mem_cons_of_mem d hbyte)) _ hlength,
        List.cons_append, scanHeader]
      simp only [Bool.false_eq_true, false_and, if_false, if_neg hreturn, if_neg hnewline, hcolon,
        not_true_eq_false, if_pos hroom]

/-- **A header line** is read as it was written. -/
theorem scanHeader_line {attr value : Bytes} {first : UInt8}
    (hattr : ∀ byte ∈ attr, NameByte byte) (hne : attr ≠ []) (hattrSpace : attr.length < attrSpace)
    (hvalue : ∀ byte ∈ value, ValueByte byte) (hhead : value.head? = some first)
    (hfirst : isSpace first = false) (hvalueSpace : value.length < valueSpace) (rest : Bytes) :
    scanHeader attrSpace valueSpace false [] [] false
        (attr ++ (text ": " ++ (value ++ (text "\r\n" ++ rest)))) =
      (some (attr, value), rest) := by
  obtain ⟨value, rfl⟩ := List.head?_eq_some_iff.mp hhead
  have hcolon : scanHeader attrSpace valueSpace false attr [] false
      (text ": " ++ (first :: value ++ (text "\r\n" ++ rest))) =
      scanHeader attrSpace valueSpace true attr [] true
        (32 :: (first :: value ++ (text "\r\n" ++ rest))) := by
    show scanHeader attrSpace valueSpace false attr [] false
      (colon :: 32 :: (first :: value ++ (text "\r\n" ++ rest))) = _
    rw [scanHeader]
    simp [colon, carriageReturn, newline, hne]
  rw [scanHeader_name hattr _ [] hattrSpace, List.nil_append, hcolon, scanHeader_skipping,
    List.dropWhile_cons_of_pos (by decide), List.cons_append,
    List.dropWhile_cons_of_neg (by simp [hfirst]), ← List.cons_append,
    scanHeader_value hvalue _ [] hvalueSpace, List.nil_append]
  show scanHeader attrSpace valueSpace false attr (first :: value) true
    (carriageReturn :: newline :: rest) = _
  rw [scanHeader]
  simp [headerLine, hne]

end Lines

/-- A line that the grammar allows is read, and the rest from behind it. -/
theorem scanHeaders_line {header header' : PartHeader} {attr value : Bytes} {first : UInt8}
    (hline : header.line attr value = .ok header')
    (hattr : ∀ byte ∈ attr, NameByte byte) (hne : attr ≠ []) (hattrSpace : attr.length < 1024)
    (hvalue : ∀ byte ∈ value, ValueByte byte) (hhead : value.head? = some first)
    (hfirst : isSpace first = false) (hvalueSpace : value.length < 1024) (rest : Bytes) :
    scanHeaders header (attr ++ (text ": " ++ (value ++ (text "\r\n" ++ rest)))) =
      scanHeaders header' rest := by
  rw [scanHeaders, scanHeader_line hattr hne hattrSpace hvalue hhead hfirst hvalueSpace]
  dsimp only
  rw [hline]

/-- The empty line that ends a header. -/
theorem scanHeaders_blank (header : PartHeader) (rest : Bytes) :
    scanHeaders header (text "\r\n" ++ rest) = .ok (header, rest) := by
  have hblank : scanHeader 1024 1024 false [] [] false (text "\r\n" ++ rest) = (none, rest) := by
    show scanHeader 1024 1024 false [] [] false (carriageReturn :: newline :: rest) = _
    rw [scanHeader]
    simp [headerLine]
  rw [scanHeaders, hblank]

/-! ## Parameters -/

/-- Letters and digits are no white space. -/
theorem not_isSpace_of_isAlnum {byte : UInt8} (h : isAlnum byte = true) :
    isSpace byte = false := by
  simp only [isAlnum, isAlpha, isSpace, Bool.or_eq_true, Bool.and_eq_true, decide_eq_true_eq,
    Bool.or_eq_false_iff, Bool.and_eq_false_iff, decide_eq_false_iff_not, UInt8.le_iff_toNat_le,
    ← UInt8.toNat_inj] at h ⊢
  simp at h ⊢
  omega

/-- What may stand behind a value: nothing, or the next parameter. -/
def Ends (rest : Bytes) : Prop := rest = [] ∨ ∃ behind, rest = semicolon :: behind

/-- Nothing stands in front of the end of a value. -/
theorem Ends.takeWhile {rest : Bytes} (h : Ends rest) : rest.takeWhile (· != semicolon) = [] := by
  rcases h with rfl | ⟨behind, rfl⟩
  · rfl
  · exact List.takeWhile_cons_of_neg (by simp)

/-- So nothing of it is dropped. -/
theorem Ends.dropWhile {rest : Bytes} (h : Ends rest) : rest.dropWhile (· != semicolon) = rest := by
  rcases h with rfl | ⟨behind, rfl⟩
  · rfl
  · exact List.dropWhile_cons_of_neg (by simp)

/-- The next parameter ends a value. -/
theorem ends_parameter (rest : Bytes) : Ends (text "; " ++ rest) := .inr ⟨_, rfl⟩

/-- A value without quotation marks goes up to the semicolon. -/
theorem readValue_token {space : Nat} {first : UInt8} {value rest : Bytes}
    (hvalue : ∀ byte ∈ value, byte ≠ semicolon) (hhead : value.head? = some first)
    (hfirst : first ≠ quote) (hspace : value.length < space) (hends : Ends rest) :
    readValue space (value ++ rest) = (value, rest) := by
  obtain ⟨value, rfl⟩ := List.head?_eq_some_iff.mp hhead
  have hall : ∀ byte ∈ first :: value, (byte != semicolon) = true := by
    intro byte hbyte
    simpa using hvalue byte hbyte
  rw [readValue.eq_def]
  split
  · rename_i heq
    exact absurd (List.cons.inj heq).1 hfirst
  · rw [List.takeWhile_append_of_pos hall, hends.takeWhile, List.append_nil,
      List.take_of_length_le (by omega), List.dropWhile_append_of_pos hall, hends.dropWhile]

/-- A quoted value goes up to its second quotation mark. -/
theorem readValue_quoted {space : Nat} {value rest : Bytes} (hvalue : ∀ byte ∈ value, byte ≠ quote)
    (hspace : value.length < space) (hends : Ends rest) :
    readValue space (quote :: (value ++ quote :: rest)) = (value, rest) := by
  have hall : ∀ byte ∈ value, (byte != quote) = true := by
    intro byte hbyte
    simpa using hvalue byte hbyte
  show (_, _) = _
  rw [List.takeWhile_append_of_pos hall, List.takeWhile_cons_of_neg (by simp), List.append_nil,
    List.take_of_length_le (by omega), List.dropWhile_append_of_pos hall,
    List.dropWhile_cons_of_neg (by simp), List.dropWhile_cons_of_pos (by decide), hends.dropWhile]

/-- **A quoted parameter** is stored as it was written. -/
theorem decomposeLoop_parameter {argNames argValues : List Bytes} {argValueSpace argNum : Nat}
    {argName argument rest : Bytes} (hname : ∀ byte ∈ argName, isAlnum byte = true)
    (hshort : argName.length ≤ 1023)
    (hfound : argNames.findIdx? (cgiStrEqNc argName) = some argNum)
    (hargument : ∀ byte ∈ argument, byte ≠ quote) (hspace : argument.length < argValueSpace)
    (hends : Ends rest) :
    decomposeLoop argNames argValueSpace
        (text "; " ++ (argName ++ (text "=\"" ++ (argument ++ quote :: rest)))) argValues =
      decomposeLoop argNames argValueSpace rest (argValues.set argNum argument) := by
  have hequals : isAlnum 61 = false := by decide
  have hskip : (32 :: (argName ++ 61 :: quote :: (argument ++ quote :: rest))).dropWhile isSpace =
      argName ++ 61 :: quote :: (argument ++ quote :: rest) := by
    rw [List.dropWhile_cons_of_pos (by decide)]
    cases argName with
    | nil => exact List.dropWhile_cons_of_neg (by decide)
    | cons d name =>
        have hspace := not_isSpace_of_isAlnum (hname d List.mem_cons_self)
        rw [List.cons_append, List.dropWhile_cons_of_neg (by simp [hspace])]
  have hbehind : ((argName ++ 61 :: quote :: (argument ++ quote :: rest)).dropWhile
      isAlnum).dropWhile isSpace = 61 :: quote :: (argument ++ quote :: rest) := by
    rw [List.dropWhile_append_of_pos hname, List.dropWhile_cons_of_neg (by simp [hequals]),
      List.dropWhile_cons_of_neg (by decide)]
  have hargName : ((argName ++ 61 :: quote :: (argument ++ quote :: rest)).takeWhile
      isAlnum).take 1023 = argName := by
    rw [List.takeWhile_append_of_pos hname, List.takeWhile_cons_of_neg (by simp [hequals]),
      List.append_nil, List.take_of_length_le hshort]
  show decomposeLoop argNames argValueSpace
    (59 :: 32 :: (argName ++ 61 :: quote :: (argument ++ quote :: rest))) argValues = _
  rw [decomposeLoop]
  dsimp only
  rw [hskip]
  split
  · rename_i behind hscan
    rw [hbehind] at hscan
    obtain rfl := (List.cons.inj hscan).2
    rw [hargName, if_neg (by omega), hfound, List.dropWhile_cons_of_neg (by decide),
      readValue_quoted hargument hspace hends]
  · rename_i hother
    exact absurd hbehind (hother _)

/-! ## Parts -/

/-- A field of a form, or a file if it has the name of one. -/
structure Part where
  name : Bytes
  fileName : Bytes
  contentType : Bytes
  body : Bytes
deriving DecidableEq, Repr

/-- The value of `Content-Disposition`. -/
def Part.disposition (part : Part) : Bytes :=
  text "form-data" ++ (text "; " ++ (text "name" ++ (text "=\"" ++ (part.name ++ quote ::
    if part.fileName = [] then []
    else text "; " ++ (text "filename" ++ (text "=\"" ++ (part.fileName ++ [quote])))))))

/-- What stands before the body. -/
def Part.headerText (part : Part) (behind : Bytes) : Bytes :=
  text "Content-Disposition" ++ (text ": " ++ (part.disposition ++ (text "\r\n" ++
    if part.contentType = [] then text "\r\n" ++ behind
    else text "Content-Type" ++ (text ": " ++ (part.contentType ++ (text "\r\n" ++
      (text "\r\n" ++ behind)))))))

/-- The limits in which the parser keeps a part. -/
structure Part.Kept (boundary : Bytes) (part : Part) : Prop where
  name : ∀ byte ∈ part.name, QuotedByte byte
  fileName : ∀ byte ∈ part.fileName, QuotedByte byte
  contentType : ∀ byte ∈ part.contentType, MediaByte byte
  disposition_length : part.disposition.length < 1024
  contentType_length : part.contentType.length < 1024
  body : ¬ delimiter boundary <:+: part.body

/-- The header that the parser collects. -/
def Part.header (part : Part) : PartHeader where
  fvalue := text "form-data"
  fname := part.name
  ffileName := part.fileName
  fcontentType := part.contentType

section Parts

variable {boundary : Bytes} {part : Part}

/-- The value of `Content-Disposition` has only bytes that are kept. -/
theorem Part.Kept.disposition (h : part.Kept boundary) :
    ∀ byte ∈ part.disposition, ValueByte byte := by
  have hname : ∀ byte ∈ part.name, ValueByte byte := fun byte hbyte => (h.name byte hbyte).1
  have hfileName : ∀ byte ∈ part.fileName, ValueByte byte :=
    fun byte hbyte => (h.fileName byte hbyte).1
  have hquote : ValueByte quote := by decide
  have hform : ∀ byte ∈ text "form-data", ValueByte byte :=
    List.all_iff_forall_prop.mp (by decide)
  have hbehind : ∀ byte ∈ text "; ", ValueByte byte := List.all_iff_forall_prop.mp (by decide)
  have hequals : ∀ byte ∈ text "=\"", ValueByte byte := List.all_iff_forall_prop.mp (by decide)
  have hnameText : ∀ byte ∈ text "name", ValueByte byte :=
    List.all_iff_forall_prop.mp (by decide)
  have hfileText : ∀ byte ∈ text "filename", ValueByte byte :=
    List.all_iff_forall_prop.mp (by decide)
  rw [Part.disposition]
  split
  · simp only [List.forall_mem_append, List.forall_mem_cons]
    exact ⟨hform, hbehind, hnameText, hequals, hname, hquote, List.forall_mem_nil _⟩
  · simp only [List.forall_mem_append, List.forall_mem_cons]
    exact ⟨hform, hbehind, hnameText, hequals, hname, hquote, hbehind, hfileText, hequals,
      hfileName, hquote, List.forall_mem_nil _⟩

/-- The name fits its buffer, since the whole value does. -/
theorem Part.Kept.name_length (h : part.Kept boundary) : part.name.length < 1024 := by
  have hlength := h.disposition_length
  simp only [Part.disposition, List.length_append, List.length_cons] at hlength
  omega

/-- So does the name of the file. -/
theorem Part.Kept.fileName_length (h : part.Kept boundary) : part.fileName.length < 1024 := by
  have hlength := h.disposition_length
  by_cases hfile : part.fileName = []
  · rw [hfile]
    exact Nat.succ_pos 1023
  · simp only [Part.disposition, if_neg hfile, List.length_append, List.length_cons] at hlength
    omega

/-- The parameters of `Content-Disposition` are read as they were written. -/
theorem decomposeValue_disposition (h : part.Kept boundary) :
    decomposeValue part.disposition 1024 [text "name", text "filename"] 1024 =
      .ok (text "form-data", [part.name, part.fileName]) := by
  have hname : ∀ byte ∈ part.name, byte ≠ quote := fun byte hbyte => (h.name byte hbyte).2
  have hfileName : ∀ byte ∈ part.fileName, byte ≠ quote :=
    fun byte hbyte => (h.fileName byte hbyte).2
  have hskip : part.disposition.dropWhile isSpace = part.disposition :=
    List.dropWhile_cons_of_neg (by decide)
  have hhead : (text "form-data").head? = some 102 := rfl
  have hform : ∀ byte ∈ text "form-data", byte ≠ semicolon :=
    List.all_iff_forall_prop.mp (by decide)
  have hnameText : ∀ byte ∈ text "name", isAlnum byte = true := List.all_eq_true.mp (by decide)
  have hfileText : ∀ byte ∈ text "filename", isAlnum byte = true :=
    List.all_eq_true.mp (by decide)
  rw [decomposeValue, hskip, Part.disposition,
    readValue_token hform hhead (by decide) (by decide) (ends_parameter _)]
  dsimp only
  split
  · rename_i hfile
    rw [decomposeLoop_parameter hnameText (by decide) rfl hname h.name_length (.inl rfl), hfile,
      decomposeLoop]
    · rfl
    · rintro rest ⟨⟩
  · rw [decomposeLoop_parameter hnameText (by decide) rfl hname h.name_length (ends_parameter _),
      decomposeLoop_parameter hfileText (by decide) rfl hfileName h.fileName_length (.inl rfl),
      decomposeLoop]
    · rfl
    · rintro rest ⟨⟩

/-- From `Content-Disposition` the parser has both names. -/
theorem line_disposition (h : part.Kept boundary) (header : PartHeader) :
    header.line (text "Content-Disposition") part.disposition =
      .ok { header with
        fvalue := text "form-data", fname := part.name, ffileName := part.fileName } := by
  have hcstr : cstr part.disposition = part.disposition :=
    cstr_eq_self fun hzero => (h.disposition 0 hzero).2.2.2 rfl
  rw [PartHeader.line, if_pos (by decide), hcstr, decomposeValue_disposition h]
  rfl

/-- From `Content-Type` it has the media type. -/
theorem line_contentType (h : part.Kept boundary) (hne : part.contentType ≠ [])
    (header : PartHeader) :
    header.line (text "Content-Type") part.contentType =
      .ok { header with fcontentType := part.contentType } := by
  have hcstr : cstr part.contentType = part.contentType :=
    cstr_eq_self fun hzero => (h.contentType 0 hzero).1.1.2.2.2 rfl
  have hbytes := h.contentType
  have hlength := h.contentType_length
  rw [PartHeader.line, if_neg (by decide), if_pos (by decide), hcstr, decomposeValue]
  obtain ⟨first, hhead⟩ := Option.isSome_iff_exists.mp (List.isSome_head?.mpr hne)
  have hfirst := hbytes first (List.mem_of_mem_head? hhead)
  have hread := readValue_token (fun byte hbyte => (hbytes byte hbyte).2.2) hhead hfirst.1.2
    hlength (.inl rfl)
  have hskip : part.contentType.dropWhile isSpace = part.contentType := by
    obtain ⟨value, heq⟩ := List.head?_eq_some_iff.mp hhead
    rw [heq, List.dropWhile_cons_of_neg (by simp [hfirst.2.1])]
  rw [List.append_nil] at hread
  rw [hskip, hread]
  dsimp only
  rw [decomposeLoop]
  · rfl
  · rintro rest ⟨⟩

/-- **The header of a part** is read as it was written. -/
theorem scanHeaders_headerText (h : part.Kept boundary) (behind : Bytes) :
    scanHeaders PartHeader.empty (part.headerText behind) = .ok (part.header, behind) := by
  have hhead : part.disposition.head? = some 102 := rfl
  have hattr : ∀ byte ∈ text "Content-Disposition", NameByte byte :=
    List.all_iff_forall_prop.mp (by decide)
  have hattr' : ∀ byte ∈ text "Content-Type", NameByte byte :=
    List.all_iff_forall_prop.mp (by decide)
  rw [Part.headerText, scanHeaders_line (line_disposition h _) hattr (by decide) (by decide)
    h.disposition hhead (by decide) h.disposition_length]
  split
  · rename_i hnil
    rw [scanHeaders_blank, Part.header, hnil]
    rfl
  · rename_i hne
    obtain ⟨first, hhead⟩ := Option.isSome_iff_exists.mp (List.isSome_head?.mpr hne)
    have hfirst := h.contentType first (List.mem_of_mem_head? hhead)
    rw [scanHeaders_line (line_contentType h hne _) hattr' (by decide) (by decide)
      (fun byte hbyte => (h.contentType byte hbyte).1.1) hhead hfirst.2.1 h.contentType_length,
      scanHeaders_blank]
    rfl

end Parts

/-! ## Forms -/

/-- What stands behind a boundary: the newline and the next part, or the end. -/
def encodeParts (boundary : Bytes) : List Part → Bytes
  | [] => text "--\r\n"
  | part :: parts =>
      text "\r\n" ++ part.headerText (part.body ++ delimiter boundary ++ encodeParts boundary parts)

/-- A form as a browser writes it. -/
def encodeForm (boundary : Bytes) (parts : List Part) : Bytes :=
  hyphen :: hyphen :: boundary ++ encodeParts boundary parts

/-- The same behind the newline of the boundary. -/
def partsText (boundary : Bytes) : List Part → Bytes
  | [] => text "--\r\n"
  | part :: parts =>
      part.headerText (part.body ++ delimiter boundary ++ encodeParts boundary parts)

/-- What a part leaves in the form, with a name for its temporary file if it has one. -/
def Form.submit (tempName : Nat → Bytes) (form : Form) (part : Part) : Form :=
  form.add part.header (if part.fileName = [] then [] else tempName form.uploads) part.body
    (part.fileName ≠ [])

/-- A field or a file, as an entry and the temporary files show it. -/
def Form.part (form : Form) (entry : Entry) : Part where
  name := entry.attr
  fileName := entry.fileName
  contentType := entry.contentType
  body :=
    if entry.fileName = [] then entry.value else (form.files.lookup entry.tfileName).getD []

def Form.parts (form : Form) : List Part := form.entries.map form.part

section Forms

variable {boundary : Bytes} {tempName : Nat → Bytes}

/-- The two bytes behind a boundary are the newline of a part, or begin the end. -/
theorem afterTrailer_encodeParts (parts : List Part) :
    afterTrailer (encodeParts boundary parts) = some (partsText boundary parts) := by
  cases parts with
  | nil => rfl
  | cons part parts => rfl

/-- A body that does not hold the delimiter is cut off where it ends. -/
theorem nextBody_encodeParts {part : Part} (hreturn : carriageReturn ∉ boundary)
    (hbody : ¬ delimiter boundary <:+: part.body) (parts : List Part) :
    nextBody boundary (part.body ++ delimiter boundary ++ encodeParts boundary parts) =
      some (part.body, partsText boundary parts) := by
  rw [nextBody, splitFirst_append (unbordered_delimiter hreturn) (List.cons_ne_nil _ _) hbody,
    Option.bind_some, afterTrailer_encodeParts, Option.map_some]

/-- With memory and a temporary file the body of a part is opened. -/
theorem openSink_created {temp : Nat → TempFile} {part : Part}
    (htemp : part.fileName ≠ [] → ∀ i, temp i = .created (tempName i) true) (form : Form) :
    ∃ sink, openSink (temp form.uploads) (fun _ => true) part.header =
        .ok (if part.fileName = [] then [] else tempName form.uploads, sink) ∧
      sink.inFile = decide (part.fileName ≠ []) := by
  by_cases hfile : part.fileName = []
  · refine ⟨.memory [] 256, ?_, by simp [hfile, Sink.inFile]⟩
    rw [if_pos hfile]
    exact if_pos hfile
  · refine ⟨.file [], ?_, by simp [hfile, Sink.inFile]⟩
    rw [if_neg hfile, htemp hfile]
    exact if_neg hfile

/-- **The parts of a form** become its entries, one by one, if there is a temporary file
for every file. -/
theorem formParts_partsText {temp : Nat → TempFile} (hreturn : carriageReturn ∉ boundary)
    {parts : List Part} (hkept : ∀ part ∈ parts, part.Kept boundary)
    (htemp : ∀ part ∈ parts, part.fileName ≠ [] → ∀ i, temp i = .created (tempName i) true)
    (form : Form) :
    formParts boundary temp (partsText boundary parts) form =
      .ok (.success, parts.foldl (Form.submit tempName) form) := by
  induction parts generalizing form with
  | nil =>
      show formParts boundary _ (hyphen :: hyphen :: text "\r\n") form = _
      rw [formParts, if_pos ⟨rfl, rfl⟩]
      rfl
  | cons part parts ih =>
      have hpart := hkept part List.mem_cons_self
      have hscan := scanHeaders_headerText hpart
        (part.body ++ delimiter boundary ++ encodeParts boundary parts)
      obtain ⟨behind, hbehind⟩ : ∃ behind,
          part.headerText (part.body ++ delimiter boundary ++ encodeParts boundary parts) =
            67 :: 111 :: behind := ⟨_, rfl⟩
      obtain ⟨sink, hopen, hinFile⟩ := openSink_created (htemp part List.mem_cons_self) form
      have hform : cgiStrEqNc part.header.fvalue (text "form-data") = true :=
        show cgiStrEqNc (text "form-data") (text "form-data") = true by decide
      rw [hbehind] at hscan
      rw [partsText, hbehind, formParts_eq (by decide) hscan,
        nextBody_encodeParts hreturn hpart.body]
      simp only [hform, not_true_eq_false, if_false, hopen, hinFile]
      exact ih (fun part hpart => hkept part (List.mem_cons_of_mem _ hpart))
        (fun part hpart => htemp part (List.mem_cons_of_mem _ hpart)) _

/-- The form holds the parts: its temporary files have names of their own, and every
entry of a file finds its file. -/
structure Form.Holds (tempName : Nat → Bytes) (form : Form) (parts : List Part) : Prop where
  names : ∀ file ∈ form.files, ∃ i < form.uploads, file.1 = tempName i
  stored : ∀ entry ∈ form.entries, entry.fileName ≠ [] →
    (form.files.lookup entry.tfileName).isSome
  parts_eq : form.parts = parts
  lengths : form.entries.map Entry.valueLength = parts.map fun part => part.body.length

/-- No parts, no entries. -/
theorem holds_empty (tempName : Nat → Bytes) : Form.empty.Holds tempName [] where
  names := by intro file hfile; cases hfile
  stored := by intro entry hentry; cases hentry
  parts_eq := rfl
  lengths := rfl

/-- Files that come later do not change what an entry shows. -/
theorem part_of_stored {form form' : Form} {entry : Entry} {later : List (Bytes × Bytes)}
    (hfiles : form'.files = form.files ++ later)
    (hstored : entry.fileName ≠ [] → (form.files.lookup entry.tfileName).isSome) :
    form'.part entry = form.part entry := by
  by_cases hfile : entry.fileName = []
  · simp only [Form.part, if_pos hfile]
  · obtain ⟨body, hbody⟩ := Option.isSome_iff_exists.mp (hstored hfile)
    simp only [Form.part, if_neg hfile, hfiles, List.lookup_append, hbody, Option.some_or]

/-- What a field adds. -/
theorem submit_field {part : Part} (hfile : part.fileName = []) (form : Form) :
    form.submit tempName part =
      ⟨form.entries ++ [⟨part.name, part.body, part.body.length, [], part.contentType, []⟩],
        form.files, form.uploads⟩ := by
  simp [Form.submit, Form.add, Part.header, hfile]

/-- What a file adds. -/
theorem submit_file {part : Part} (hfile : part.fileName ≠ []) (form : Form) :
    form.submit tempName part =
      ⟨form.entries ++ [⟨part.name, [], part.body.length, part.fileName, part.contentType,
        tempName form.uploads⟩], form.files ++ [(tempName form.uploads, part.body)],
        form.uploads + 1⟩ := by
  simp [Form.submit, Form.add, Part.header, hfile]

/-- A field is held by its entry. -/
theorem holds_field {form : Form} {parts : List Part} (h : form.Holds tempName parts) {part : Part}
    (hfile : part.fileName = []) :
    (form.submit tempName part).Holds tempName (parts ++ [part]) := by
  rw [submit_field hfile]
  refine ⟨h.names, ?_, ?_, ?_⟩
  · intro entry hentry hne
    rcases List.mem_append.mp hentry with hentry | hentry
    · exact h.stored entry hentry hne
    · obtain rfl := List.mem_singleton.mp hentry
      exact absurd rfl hne
  · rw [← h.parts_eq, Form.parts, List.map_append]
    congr 1
    obtain ⟨name, fileName, contentType, body⟩ := part
    obtain rfl : fileName = [] := hfile
    rfl
  · rw [List.map_append, h.lengths, List.map_append]
    rfl

/-- A file is held by its temporary file, whose name no other one has. -/
theorem holds_file (hinjective : Function.Injective tempName) {form : Form} {parts : List Part}
    (h : form.Holds tempName parts) {part : Part} (hfile : part.fileName ≠ []) :
    (form.submit tempName part).Holds tempName (parts ++ [part]) := by
  have hfresh : form.files.lookup (tempName form.uploads) = none := by
    rw [List.lookup_eq_none_iff]
    intro file hmem
    obtain ⟨i, hi, hname⟩ := h.names file hmem
    rw [hname, bne_iff_ne]
    exact fun heq => absurd (hinjective heq) (by omega)
  have hfound : (form.files ++ [(tempName form.uploads, part.body)]).lookup
      (tempName form.uploads) = some part.body := by
    rw [List.lookup_append, hfresh, Option.none_or, List.lookup_cons_self]
  rw [submit_file hfile]
  refine ⟨?_, ?_, ?_, ?_⟩
  · intro file hmem
    rcases List.mem_append.mp hmem with hmem | hmem
    · obtain ⟨i, hi, hname⟩ := h.names file hmem
      exact ⟨i, Nat.lt_succ_of_lt hi, hname⟩
    · obtain rfl := List.mem_singleton.mp hmem
      exact ⟨form.uploads, Nat.lt_succ_self _, rfl⟩
  · intro entry hentry hne
    rcases List.mem_append.mp hentry with hentry | hentry
    · obtain ⟨body, hbody⟩ := Option.isSome_iff_exists.mp (h.stored entry hentry hne)
      rw [List.lookup_append, hbody]
      rfl
    · obtain rfl := List.mem_singleton.mp hentry
      rw [hfound]
      rfl
  · rw [← h.parts_eq, Form.parts, List.map_append]
    congr 1
    · exact List.map_congr_left fun entry hentry => part_of_stored rfl (h.stored entry hentry)
    · rw [List.map_singleton, Form.part]
      simp only [if_neg hfile, hfound, Option.getD_some]
  · rw [List.map_append, h.lengths, List.map_append]
    rfl

/-- **All parts.** -/
theorem holds_foldl (hinjective : Function.Injective tempName) (parts : List Part) :
    ∀ {form : Form} {before : List Part}, form.Holds tempName before →
      (parts.foldl (Form.submit tempName) form).Holds tempName (before ++ parts) := by
  induction parts with
  | nil =>
      intro form before h
      rw [List.append_nil]
      exact h
  | cons part parts ih =>
      intro form before h
      rw [List.foldl_cons, List.append_cons]
      by_cases hfile : part.fileName = []
      · exact ih (holds_field h hfile)
      · exact ih (holds_file hinjective h hfile)

end Forms

/-- A map that succeeds is one of a result. -/
theorem ok_of_map {α β : Type} {f : α → β} {result : Except Fault α} {value : β}
    (h : result.map f = .ok value) : ∃ returned, result = .ok returned ∧ f returned = value := by
  cases result with
  | error _ => cases h
  | ok returned => exact ⟨returned, rfl, Except.ok.inj h⟩

/-- What the parser makes of a form, part by part. -/
theorem parse_encodeForm {boundary : Bytes} {parts : List Part} (tempName : Nat → Bytes)
    {host : Host} (hhost : host.Ample) (behind : Bytes)
    (hlimit : (encodeForm boundary parts).length < 2 ^ 30) (hsize : boundary.length ≤ 1019)
    (hreturn : carriageReturn ∉ boundary) (hkept : ∀ part ∈ parts, part.Kept boundary)
    (htemp : ∀ part ∈ parts, part.fileName ≠ [] →
      ∀ i, host.temp i = .created (tempName i) true) :
    ∃ mpp, cgiParsePostMultipartInput (encodeForm boundary parts).length boundary
        (encodeForm boundary parts ++ behind) host =
      .ok (.success, parts.foldl (Form.submit tempName) Form.empty, mpp) := by
  have htake : (encodeForm boundary parts ++ behind).take (encodeForm boundary parts).length =
      [] ++ (hyphen :: hyphen :: boundary) ++ encodeParts boundary parts := by
    rw [List.take_left]
    rfl
  have hparse := parse_behind_boundary hhost hlimit hsize hreturn List.not_mem_nil htake
    (afterTrailer_encodeParts parts)
  rw [formParts_partsText hreturn hkept htemp] at hparse
  obtain ⟨⟨result, form, mpp⟩, hreturned, heq⟩ := ok_of_map hparse
  obtain ⟨rfl, rfl⟩ := Prod.mk.inj heq
  exact ⟨mpp, hreturned⟩

/-- **A form comes back.**  Whatever fields and files a browser submits within the limits
of the parser, whatever bytes the files are made of and whatever follows the form on the
stream, the entries and the temporary files give the parts in their order, and the
lengths of their bodies.  There is memory, and a temporary file of its own for each
upload. -/
theorem cgiParsePostMultipartInput_encodeForm (boundary behind : Bytes) (parts : List Part)
    (tempName : Nat → Bytes) (hlimit : (encodeForm boundary parts).length < 2 ^ 30)
    (hsize : boundary.length ≤ 1019) (hreturn : carriageReturn ∉ boundary)
    (hkept : ∀ part ∈ parts, part.Kept boundary) (hinjective : Function.Injective tempName) :
    ∃ form mpp,
      cgiParsePostMultipartInput (encodeForm boundary parts).length boundary
          (encodeForm boundary parts ++ behind)
          ⟨fun i => .created (tempName i) true, fun _ _ => true⟩ =
        .ok (.success, form, mpp) ∧
      form.parts = parts ∧
      form.entries.map Entry.valueLength = parts.map fun part => part.body.length := by
  have hample : (⟨fun i => .created (tempName i) true, fun _ _ => true⟩ : Host).Ample :=
    fun _ _ => rfl
  obtain ⟨mpp, hreturned⟩ :=
    parse_encodeForm tempName hample behind hlimit hsize hreturn hkept fun _ _ _ _ => rfl
  have hholds := holds_foldl hinjective parts (holds_empty tempName)
  exact ⟨_, mpp, hreturned, hholds.parts_eq, hholds.lengths⟩

/-- A field whose value ends like a line, and a file that holds a NUL. -/
def mixedForm : List Part :=
  [⟨text "note", [], [], text "a--b\r"⟩,
    ⟨text "firmware", text "image 1.bin", text "application/octet-stream", [0, 13, 10, 45, 45]⟩]

/-- Names like those of `mkstemp`. -/
def cgicName (i : Nat) : Bytes := text "/tmp/cgic" ++ List.replicate i 97

/-- The field and the file come back. -/
theorem cgiParsePostMultipartInput_encodeForm_mixed :
    ∃ form mpp,
      cgiParsePostMultipartInput (encodeForm (text "AaB03x") mixedForm).length (text "AaB03x")
          (encodeForm (text "AaB03x") mixedForm ++ text "next")
          ⟨fun i => .created (cgicName i) true, fun _ _ => true⟩ =
        .ok (.success, form, mpp) ∧
      form.parts = mixedForm ∧
      form.entries.map Entry.valueLength = mixedForm.map fun part => part.body.length := by
  have hshort : (encodeForm (text "AaB03x") mixedForm).length ≤ 300 := by decide +kernel
  apply cgiParsePostMultipartInput_encodeForm (text "AaB03x") (text "next") mixedForm cgicName
    (by omega) (by decide) (by decide)
  · intro part hpart
    simp only [mixedForm, List.mem_cons, List.not_mem_nil, or_false] at hpart
    rcases hpart with rfl | rfl
    · exact ⟨List.all_iff_forall_prop.mp (by decide), List.all_iff_forall_prop.mp (by decide),
        List.all_iff_forall_prop.mp (by decide), by decide, by decide, by decide⟩
    · exact ⟨List.all_iff_forall_prop.mp (by decide), List.all_iff_forall_prop.mp (by decide),
        List.all_iff_forall_prop.mp (by decide), by decide, by decide, by decide⟩
  · intro i j heq
    simpa [cgicName] using congrArg List.length heq

end Multipart
