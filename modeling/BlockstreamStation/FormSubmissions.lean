import BlockstreamStation.LoginQuery
import BlockstreamStation.MultipartEncoding

/-!
# The ways a form is submitted

`main` of `cgic.c` reads the request from its environment, chooses a parser and calls
`cgiMain`.  A browser submits a form as the query of a URL, as a body in the syntax of
queries, or as a multipart body.

* `cgiParseFormInput_encodeQuery`: escaped as a browser escapes them, fields of any
  bytes come back, each up to its first NUL;
* `main_submission`: in all three ways `main` hands the same fields to `cgiMain`.
-/

namespace Login

open CText Multipart

/-! ## Escaping -/

/-- A hexadecimal digit as browsers write it. -/
def hexByte (n : Nat) : UInt8 := if n < 10 then UInt8.ofNat (48 + n) else UInt8.ofNat (55 + n)

/-- A byte that stands for itself: a letter, a digit, or one of `*-._`. -/
def unescaped (byte : UInt8) : Bool := isAlnum byte || (text "*-._").contains byte

def escapeByte (byte : UInt8) : Bytes :=
  if unescaped byte then [byte]
  else if byte = 32 then [plus]
  else [percent, hexByte (byte.toNat / 16), hexByte (byte.toNat % 16)]

/-- A name or a value in the syntax of queries. -/
def escapeChars (bytes : Bytes) : Bytes := bytes.flatMap escapeByte

/-- The fields of a form as a query. -/
def encodeQuery : List FormEntry → Bytes
  | [] => []
  | field :: fields =>
      escapeChars field.attr ++ equals :: (escapeChars field.value ++
        if fields = [] then [] else ampersand :: encodeQuery fields)

/-- A field as the program sees it, in C strings. -/
def FormEntry.cstr (field : FormEntry) : FormEntry where
  attr := CText.cstr field.attr
  value := CText.cstr field.value

/-- A hexadecimal digit has its value. -/
theorem cgiHexValue_hexByte {n : Nat} (h : n < 16) : cgiHexValue (hexByte n) = some n := by
  interval_cases n <;> rfl

/-- An escaped byte is read as the byte. -/
theorem unescapeLoop_escapeByte (byte : UInt8) (rest : Bytes) (escapedValue : Nat) :
    ∃ escapedValue', unescapeLoop .rest escapedValue (escapeByte byte ++ rest) =
      (unescapeLoop .rest escapedValue' rest).map (byte :: ·) := by
  rw [escapeByte]
  split
  · rename_i hself
    have hpercent : byte ≠ percent := by rintro rfl; revert hself; decide
    have hplus : byte ≠ plus := by rintro rfl; revert hself; decide
    exact ⟨escapedValue, by
      rw [List.singleton_append, unescapeLoop, if_neg hpercent, if_neg hplus]⟩
  · split
    · rename_i hspace
      exact ⟨escapedValue, by
        rw [List.singleton_append, unescapeLoop, if_neg (by decide), if_pos rfl, hspace]⟩
    · have hlt := byte.toNat_lt
      have hhigh := cgiHexValue_hexByte (n := byte.toNat / 16) (by omega)
      have hlow := cgiHexValue_hexByte (n := byte.toNat % 16) (by omega)
      have hvalue : (byte.toNat / 16) <<< 4 + byte.toNat % 16 = byte.toNat := by
        rw [Nat.shiftLeft_eq]
        omega
      refine ⟨byte.toNat, ?_⟩
      show unescapeLoop .rest escapedValue
        (percent :: hexByte (byte.toNat / 16) :: hexByte (byte.toNat % 16) :: rest) = _
      rw [unescapeLoop, if_pos rfl, unescapeLoop, hhigh, Option.bind_eq_bind, Option.bind_some,
        unescapeLoop, hlow, Option.bind_eq_bind, Option.bind_some]
      simp only [hvalue, UInt8.ofNat_toNat]

/-- What a browser escapes is undone, from any state of the last escape. -/
theorem unescapeLoop_escapeChars (bytes : Bytes) (escapedValue : Nat) :
    unescapeLoop .rest escapedValue (escapeChars bytes) = some bytes := by
  induction bytes generalizing escapedValue with
  | nil => rfl
  | cons byte bytes ih =>
      obtain ⟨escapedValue', hbyte⟩ :=
        unescapeLoop_escapeByte byte (escapeChars bytes) escapedValue
      rw [escapeChars, List.flatMap_cons, ← escapeChars, hbyte, ih, Option.map_some]

/-- Whatever bytes are escaped, they are read back up to the first NUL. -/
theorem cgiUnescapeChars_escapeChars (bytes : Bytes) :
    cgiUnescapeChars (escapeChars bytes) = some (cstr bytes) := by
  rw [cgiUnescapeChars, unescapeLoop_escapeChars, Option.map_some]

/-- Hexadecimal digits separate nothing. -/
theorem hexByte_ne {n : Nat} (h : n < 16) : hexByte n ≠ equals ∧ hexByte n ≠ ampersand := by
  interval_cases n <;> decide

/-- Escaping writes none of the characters that separate fields. -/
theorem ne_of_mem_escapeByte {b byte : UInt8} (h : b ∈ escapeByte byte) :
    b ≠ equals ∧ b ≠ ampersand := by
  rw [escapeByte] at h
  split at h
  · rename_i hself
    obtain rfl := List.mem_singleton.mp h
    constructor <;> (rintro rfl; revert hself; decide)
  · split at h
    · obtain rfl := List.mem_singleton.mp h
      decide
    · have hlt := byte.toNat_lt
      simp only [List.mem_cons, List.not_mem_nil, or_false] at h
      rcases h with rfl | rfl | rfl
      · decide
      · exact hexByte_ne (by omega)
      · exact hexByte_ne (by omega)

/-- An escaped text has no separators. -/
theorem not_mem_escapeChars {stop : UInt8} (hstop : stop = equals ∨ stop = ampersand)
    (bytes : Bytes) : stop ∉ escapeChars bytes := by
  intro hmem
  obtain ⟨byte, -, hbyte⟩ := List.mem_flatMap.mp hmem
  obtain ⟨hequals, hampersand⟩ := ne_of_mem_escapeByte hbyte
  exact hstop.elim hequals hampersand

/-- A text without the separator is scanned to its end. -/
theorem scanTo_end {stop : UInt8} {data : Bytes} (h : stop ∉ data) :
    scanTo stop data = (data, none) := by
  have hall : ∀ b ∈ data, (b != stop) = true := by
    intro b hb
    have hne : b ≠ stop := fun heq => h (heq ▸ hb)
    simpa using hne
  rw [scanTo, List.takeWhile_eq_self_iff.mpr hall, List.dropWhile_eq_nil_iff.mpr hall]
  rfl

/-- **A query comes back**, each name and value up to its first NUL. -/
theorem cgiParseFormInput_encodeQuery (fields : List FormEntry) :
    cgiParseFormInput (encodeQuery fields) = some (fields.map FormEntry.cstr) := by
  induction fields with
  | nil => rw [encodeQuery, cgiParseFormInput]; rfl
  | cons field fields ih =>
      have hequals := not_mem_escapeChars (.inl rfl) field.attr
      have hampersand := not_mem_escapeChars (.inr rfl) field.value
      rw [encodeQuery, cgiParseFormInput_eq (scanTo_of_not_mem hequals _), List.map_cons]
      split
      · rename_i hnil
        rw [List.append_nil, scanTo_end hampersand, hnil]
        simp only [cgiUnescapeChars_escapeChars]
        rfl
      · rw [scanTo_of_not_mem hampersand]
        simp only [cgiUnescapeChars_escapeChars, Option.elim_some, ih, Option.bind_some]
        rfl

/-! ## The request -/

/-- What the web server hands over: the method, the query, `CONTENT_TYPE` if there is one,
what `atoi` makes of `CONTENT_LENGTH`, and standard input. -/
structure Request where
  requestMethod : Bytes
  queryString : Bytes
  contentType : Option Bytes
  contentLength : Int
  cgiIn : Bytes
deriving DecidableEq, Repr

/-- `cgiStrBeginsNc`. -/
def cgiStrBeginsNc : Bytes → Bytes → Bool
  | _, [] => true
  | [], _ :: _ => false
  | a :: s1, b :: s2 =>
      if isAlpha a then
        if toLower a ≠ toLower b then false else cgiStrBeginsNc s1 s2
      else if a ≠ b then false
      else cgiStrBeginsNc s1 s2

/-- A parameter of the content type leaves less of it. -/
theorem length_parameter_lt (rest : Bytes) :
    ((rest.dropWhile isSpace).dropWhile (· != semicolon)).length < (59 :: rest).length := by
  have hspace := (List.dropWhile_suffix (l := rest) isSpace).length_le
  have hend := (List.dropWhile_suffix (l := rest.dropWhile isSpace) (· != semicolon)).length_le
  rw [List.length_cons]
  omega

/-- The loop of `main` over the parameters of the content type. -/
def multipartBoundary : Bytes → Bytes
  | 59 :: rest =>
      let sat := rest.dropWhile isSpace
      if cgiStrBeginsNc sat (text "boundary=") then (sat.drop 9).takeWhile fun s => ¬ isSpace s
      else multipartBoundary (sat.dropWhile (· != semicolon))
  | _ => []
termination_by sat => sat.length
decreasing_by exact length_parameter_lt rest

/-- `cgiContentType` and `cgiMultipartBoundary`. -/
def cgiContentType (contentType : Option Bytes) : Bytes × Bytes :=
  let data := (contentType.getD []).take 1023
  (data.takeWhile (· != semicolon), multipartBoundary (data.dropWhile (· != semicolon)))

/-- `cgiParsePostFormInput`; `some none` is a failure, `none` undefined behaviour. -/
def cgiParsePostFormInput (cgiContentLength : Int) (cgiIn : Bytes) :
    Option (Option (List FormEntry)) :=
  if cgiContentLength = 0 then some (some [])
  else if cgiContentLength < 0 then some none
  else if cgiIn.length < cgiContentLength.toNat then some none
  else (cgiParseFormInput (cgiIn.take cgiContentLength.toNat)).map some

/-- An entry of a multipart form as the string functions see it. -/
def formEntry (entry : Entry) : FormEntry := ⟨entry.attr, CText.cstr entry.value⟩

/-- What `main` sends. -/
inductive Answer
  | page (response : Response)
  | status (code : Nat) (message : Bytes)
deriving DecidableEq, Repr

/-- The end of `main`: the page, or the status of a form that could not be read. -/
def answer (file : Option Bytes) (form : Option (List FormEntry)) : Option Answer :=
  match form with
  | none => some (.status 500 (text "Error reading form data"))
  | some form => (cgiMain file form).map .page

/-- `main`; `none` is undefined behaviour. -/
def main (file : Option Bytes) (host : Host) (request : Request) : Option Answer :=
  let contentType := cgiContentType request.contentType
  if cgiStrEqNc request.requestMethod (text "post") then
    if cgiStrEqNc contentType.1 (text "application/x-www-form-urlencoded") then
      (cgiParsePostFormInput request.contentLength request.cgiIn).bind (answer file)
    else if cgiStrEqNc contentType.1 (text "multipart/form-data") then
      match cgiParsePostMultipartInput request.contentLength contentType.2 request.cgiIn host with
      | .error _ => none
      | .ok (.success, form, _) => answer file (some (form.entries.map formEntry))
      | .ok _ => answer file none
    else answer file (some [])
  else if cgiStrEqNc request.requestMethod (text "get") then
    (cgiParseFormInput request.queryString).bind fun form => answer file (some form)
  else answer file (some [])

/-! ## Submissions -/

/-- The ways a browser submits a form. -/
inductive Submission
  | query
  | urlencoded
  | multipart (boundary : Bytes)

/-- A field as a part. -/
def FormEntry.part (field : FormEntry) : Part := ⟨field.attr, [], [], field.value⟩

/-- The request for a form; `behind` is what stands on standard input behind it. -/
def Submission.request (fields : List FormEntry) (behind : Bytes) : Submission → Request
  | .query => ⟨text "GET", encodeQuery fields, none, 0, behind⟩
  | .urlencoded =>
      ⟨text "POST", [], some (text "application/x-www-form-urlencoded"),
        (encodeQuery fields).length, encodeQuery fields ++ behind⟩
  | .multipart boundary =>
      ⟨text "POST", [], some (text "multipart/form-data; boundary=" ++ boundary),
        (encodeForm boundary (fields.map FormEntry.part)).length,
        encodeForm boundary (fields.map FormEntry.part) ++ behind⟩

/-- The limits of a submission: a query whose length is an `int`; for a multipart body less
than 2 ^ 30 bytes, a boundary that fits the content type and has no white space in it,
parts that the parser keeps, and memory. -/
def Submission.Carries (host : Host) (fields : List FormEntry) : Submission → Prop
  | .multipart boundary =>
      host.Ample ∧ (encodeForm boundary (fields.map FormEntry.part)).length < 2 ^ 30 ∧
        boundary.length ≤ 993 ∧ (∀ byte ∈ boundary, isSpace byte = false) ∧
        ∀ field ∈ fields, field.part.Kept boundary
  | _ => (encodeQuery fields).length ≤ intMax

/-- A text begins with its front. -/
theorem cgiStrBeginsNc_append (s1 rest : Bytes) : cgiStrBeginsNc (s1 ++ rest) s1 = true := by
  induction s1 with
  | nil => cases rest <;> rfl
  | cons a s1 ih =>
      rw [List.cons_append, cgiStrBeginsNc]
      split_ifs with halpha hlower hne
      · exact absurd rfl hlower
      · exact ih
      · exact absurd rfl hne
      · exact ih

/-- The boundary is found in the content type of a browser. -/
theorem cgiContentType_boundary {boundary : Bytes} (hlength : boundary.length ≤ 993)
    (hspace : ∀ byte ∈ boundary, isSpace byte = false) :
    cgiContentType (some (text "multipart/form-data; boundary=" ++ boundary)) =
      (text "multipart/form-data", boundary) := by
  have htype : ∀ byte ∈ text "multipart/form-data", (byte != semicolon) = true :=
    List.all_eq_true.mp (by decide)
  have hsplit : text "multipart/form-data; boundary=" ++ boundary =
      text "multipart/form-data" ++ semicolon :: 32 :: (text "boundary=" ++ boundary) := rfl
  have hsize : (text "multipart/form-data" ++
      semicolon :: 32 :: (text "boundary=" ++ boundary)).length ≤ 1023 := by
    show boundary.length + 30 ≤ 1023
    omega
  have hskip : (32 :: (text "boundary=" ++ boundary)).dropWhile isSpace =
      text "boundary=" ++ boundary := by
    rw [List.dropWhile_cons_of_pos (by decide)]
    exact List.dropWhile_cons_of_neg (by decide)
  have hkept : ∀ byte ∈ boundary, decide (¬ isSpace byte = true) = true := by
    intro byte hbyte
    simp [hspace byte hbyte]
  have hboundary : multipartBoundary (semicolon :: 32 :: (text "boundary=" ++ boundary)) =
      boundary := by
    show multipartBoundary (59 :: 32 :: (text "boundary=" ++ boundary)) = boundary
    rw [multipartBoundary, hskip, if_pos (cgiStrBeginsNc_append _ _)]
    exact List.takeWhile_eq_self_iff.mpr hkept
  rw [cgiContentType, Option.getD_some, hsplit, List.take_of_length_le hsize,
    List.takeWhile_append_of_pos htype, List.dropWhile_append_of_pos htype,
    List.takeWhile_cons_of_neg (by simp), List.dropWhile_cons_of_neg (by simp), List.append_nil,
    hboundary]

/-- A body in the syntax of queries comes back like a query. -/
theorem cgiParsePostFormInput_encodeQuery (fields : List FormEntry) (behind : Bytes) :
    cgiParsePostFormInput (encodeQuery fields).length (encodeQuery fields ++ behind) =
      some (some (fields.map FormEntry.cstr)) := by
  have hparse := cgiParseFormInput_encodeQuery fields
  rw [cgiParsePostFormInput]
  by_cases hnil : encodeQuery fields = []
  · have hempty : cgiParseFormInput [] = some [] := by
      rw [cgiParseFormInput]
      rfl
    rw [hnil, hempty] at hparse
    rw [if_pos (by rw [hnil]; rfl), hparse]
  · have hpos := List.length_pos_iff.mpr hnil
    rw [if_neg (by omega), if_neg (by omega), Int.toNat_natCast,
      if_neg (by rw [List.length_append]; omega), List.take_left, hparse, Option.map_some]

/-- Fields without files become their own entries. -/
theorem formEntries_foldl (tempName : Nat → Bytes) (fields : List FormEntry) (form : Form) :
    (((fields.map FormEntry.part).foldl (Form.submit tempName) form).entries).map formEntry =
      form.entries.map formEntry ++
        fields.map fun field => ⟨field.attr, CText.cstr field.value⟩ := by
  induction fields generalizing form with
  | nil => rw [List.map_nil, List.map_nil, List.append_nil, List.foldl_nil]
  | cons field fields ih =>
      rw [List.map_cons, List.foldl_cons, ih, submit_field rfl, List.map_append, List.append_assoc]
      rfl

/-- In the limits of the multipart parser a name has no NUL. -/
theorem map_cstr_of_kept {boundary : Bytes} {fields : List FormEntry}
    (hkept : ∀ field ∈ fields, field.part.Kept boundary) :
    (fields.map fun field => (⟨field.attr, CText.cstr field.value⟩ : FormEntry)) =
      fields.map FormEntry.cstr := by
  apply List.map_congr_left
  intro field hfield
  have hname : CText.cstr field.attr = field.attr :=
    cstr_eq_self fun hzero => ((hkept field hfield).name 0 hzero).1.2.2.2 rfl
  rw [FormEntry.cstr, hname]

/-- **All ways are one.**  However a browser submits a form, the program decides on the
same fields: those of the form, each name and value up to its first NUL.  Temporary
files and what follows on standard input play no part. -/
theorem main_submission (file : Option Bytes) (host : Host) (fields : List FormEntry)
    (behind : Bytes) (submission : Submission) (h : submission.Carries host fields) :
    main file host (submission.request fields behind) =
      (cgiMain file (fields.map FormEntry.cstr)).map .page := by
  cases submission with
  | query =>
      have hmethod : cgiStrEqNc (text "GET") (text "post") = false := by decide
      have hget : cgiStrEqNc (text "GET") (text "get") = true := by decide
      simp only [main, Submission.request, hmethod, hget, Bool.false_eq_true, if_false, if_true,
        cgiParseFormInput_encodeQuery, Option.bind_some, answer]
  | urlencoded =>
      have hmethod : cgiStrEqNc (text "POST") (text "post") = true := by decide
      have htype : cgiStrEqNc
          (cgiContentType (some (text "application/x-www-form-urlencoded"))).1
          (text "application/x-www-form-urlencoded") = true := by decide
      simp only [main, Submission.request, hmethod, htype, if_true,
        cgiParsePostFormInput_encodeQuery, Option.bind_some, answer]
  | multipart boundary =>
      obtain ⟨hhost, hlimit, hlength, hspace, hkept⟩ := h
      have hmethod : cgiStrEqNc (text "POST") (text "post") = true := by decide
      have hother : cgiStrEqNc (text "multipart/form-data")
          (text "application/x-www-form-urlencoded") = false := by decide
      have htype : cgiStrEqNc (text "multipart/form-data") (text "multipart/form-data") = true := by
        decide
      have hreturn : carriageReturn ∉ boundary := by
        intro hmem
        have hblank := hspace _ hmem
        revert hblank
        decide
      have hparts : ∀ part ∈ fields.map FormEntry.part, part.Kept boundary := by
        intro part hpart
        obtain ⟨field, hfield, rfl⟩ := List.mem_map.mp hpart
        exact hkept field hfield
      obtain ⟨mpp, hparse⟩ := parse_encodeForm (fun _ => []) hhost behind hlimit (by omega)
        hreturn hparts (by
          intro part hpart hfile
          obtain ⟨field, -, rfl⟩ := List.mem_map.mp hpart
          exact absurd rfl hfile)
      simp only [main, Submission.request, hmethod, cgiContentType_boundary hlength hspace, hother,
        htype, if_true, Bool.false_eq_true, if_false, hparse, answer, formEntries_foldl,
        map_cstr_of_kept hkept]
      rfl

/-- A login with a percent sign in the password. -/
def typedFields : List FormEntry :=
  [⟨text "username", text "nexion"⟩, ⟨text "password", text "50% & more"⟩]

/-- A form with a percent sign and an ampersand in it, as multipart. -/
theorem main_submission_multipart :
    main (some (text "username=nexion\nuserpw=50% & more\n")) ⟨fun _ => .failed, fun _ _ => true⟩
        (Submission.request typedFields (text "next") (.multipart (text "AaB03x"))) =
      (cgiMain (some (text "username=nexion\nuserpw=50% & more\n"))
        (typedFields.map FormEntry.cstr)).map .page := by
  apply main_submission
  have hshort : (encodeForm (text "AaB03x") (typedFields.map FormEntry.part)).length ≤ 300 := by
    decide +kernel
  refine ⟨fun _ _ => rfl, by omega, by decide, List.all_iff_forall_prop.mp (by decide), ?_⟩
  intro field hfield
  simp only [typedFields, List.mem_cons, List.not_mem_nil, or_false] at hfield
  rcases hfield with rfl | rfl
  · exact ⟨List.all_iff_forall_prop.mp (by decide), List.all_iff_forall_prop.mp (by decide),
      List.all_iff_forall_prop.mp (by decide), by decide, by decide, by decide⟩
  · exact ⟨List.all_iff_forall_prop.mp (by decide), List.all_iff_forall_prop.mp (by decide),
      List.all_iff_forall_prop.mp (by decide), by decide, by decide, by decide⟩

end Login
