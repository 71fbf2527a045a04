import BlockstreamStation.LoginDecision

/-!
# From the login page to the form entries

`login` of `html/Login.html` puts the two fields into a URL as they are.  The
`ajax` of the page's jQuery cuts a URL at its first `#`, and `cgiParseFormInput`
of `cgic.c` takes the query string apart again at `=` and `&`, undoing escapes
the page never made: `+` becomes a space and `%XX` a byte.  Browser and web server
are taken to hand the query string on unchanged.

`firstValue_username` and `firstValue_password` give the values the program
finds, for any fields; `query_agrees_iff` says that they are the fields exactly
when neither has a `&`, a `+`, a `%` or a `#` in it.
-/

namespace Login

open CText

def ampersand : UInt8 := 38

def plus : UInt8 := 43

def percent : UInt8 := 37

def equals : UInt8 := 61

def questionMark : UInt8 := 63

def numberSign : UInt8 := 35

/-! ## The page -/

/-- The URL that `login` requests. -/
def loginUrl (username password : Bytes) : Bytes :=
  text "/cgi-bin/login.cgi?username=" ++ username ++ text "&password=" ++ password

/-- The URL that jQuery requests: `ajax` replaces what matches `#.*$` by nothing. -/
def ajaxUrl (url : Bytes) : Bytes := url.takeWhile (· != numberSign)

/-- What stands behind the first `?` of the URL requested. -/
def queryString (url : Bytes) : Bytes := ((ajaxUrl url).dropWhile (· != questionMark)).tail

/-- Printable ASCII. -/
def Printable (bytes : Bytes) : Prop := ∀ b ∈ bytes, 32 ≤ b ∧ b ≤ 126

instance (bytes : Bytes) : Decidable (Printable bytes) := List.decidableBAll _ bytes

/-- What a field of the page can hold: printable ASCII, at most `MaxLength`
characters. -/
structure Field where
  bytes : Bytes
  printable : Printable bytes
  length_le : bytes.length ≤ 50

/-! ## The parser -/

/-- `cgiHexValue`, which is 0 for everything that is no hexadecimal digit.  From
128 on the index, a signed `char`, lies in front of the table (`none`). -/
def cgiHexValue (ch : UInt8) : Option Nat :=
  if 128 ≤ ch then none
  else if 48 ≤ ch ∧ ch ≤ 57 then some (ch.toNat - 48)
  else if 65 ≤ ch ∧ ch ≤ 70 then some (ch.toNat - 55)
  else if 97 ≤ ch ∧ ch ≤ 102 then some (ch.toNat - 87)
  else some 0

/-- `cgiEscapeState`. -/
inductive EscapeState
  | rest
  | first
  | second
deriving DecidableEq

/-- The loop of `cgiUnescapeChars`: what it stores from here on.  `none` is a read
in front of the table. -/
def unescapeLoop : EscapeState → Nat → Bytes → Option Bytes
  | _, _, [] => some []
  | .rest, escapedValue, ch :: src =>
      if ch = percent then unescapeLoop .first escapedValue src
      else if ch = plus then (unescapeLoop .rest escapedValue src).map (32 :: ·)
      else (unescapeLoop .rest escapedValue src).map (ch :: ·)
  | .first, _, ch :: src => do
      let value ← cgiHexValue ch
      unescapeLoop .second (value <<< 4) src
  | .second, escapedValue, ch :: src => do
      let value ← cgiHexValue ch
      let escapedValue := escapedValue + value
      (unescapeLoop .rest escapedValue src).map (UInt8.ofNat escapedValue :: ·)

/-- `cgiUnescapeChars`: the C string it returns. -/
def cgiUnescapeChars (cp : Bytes) : Option Bytes := (unescapeLoop .rest 0 cp).map cstr

/-- One of the two scans of `cgiParseFormInput`: the bytes before `stop`, and the
bytes behind it if it was found. -/
def scanTo (stop : UInt8) (data : Bytes) : Bytes × Option Bytes :=
  (data.takeWhile (· != stop), (data.dropWhile (· != stop)).tail?)

/-- Behind a separator there is less than before it. -/
theorem length_of_scanTo {stop : UInt8} {data front behind : Bytes}
    (h : scanTo stop data = (front, some behind)) : behind.length < data.length := by
  have hbehind : (data.dropWhile (· != stop)).tail? = some behind := congrArg Prod.snd h
  have hlength := (List.dropWhile_suffix (l := data) (· != stop)).length_le
  cases hdrop : data.dropWhile (· != stop) with
  | nil => simp [hdrop] at hbehind
  | cons b rest =>
      rw [hdrop] at hbehind hlength
      obtain rfl := Option.some.inj hbehind
      simp only [List.length_cons] at hlength
      omega

/-- `cgiParseFormInput`: the list of entries it builds. -/
def cgiParseFormInput (data : Bytes) : Option (List FormEntry) :=
  match _hname : scanTo equals data with
  | (_, none) => some []
  | (name, some rest) =>
      match _hvalue : scanTo ampersand rest with
      | (value, none) => do
          let attr ← cgiUnescapeChars name
          let value ← cgiUnescapeChars value
          some [⟨attr, value⟩]
      | (value, some behind) => do
          let attr ← cgiUnescapeChars name
          let value ← cgiUnescapeChars value
          let entries ← cgiParseFormInput behind
          some (⟨attr, value⟩ :: entries)
termination_by data.length
decreasing_by
  have h1 := length_of_scanTo _hname
  have h2 := length_of_scanTo _hvalue
  omega

/-- The value of the first entry of a name. -/
def firstValue (form : List FormEntry) (name : Bytes) : Option Bytes :=
  (form.find? fun entry => entry.attr = name).map FormEntry.value

/-! ## Unescaping -/

/-- Undoing escapes makes nothing longer. -/
theorem length_unescapeLoop_le {state : EscapeState} {escapedValue : Nat} {src stored : Bytes}
    (h : unescapeLoop state escapedValue src = some stored) : stored.length ≤ src.length := by
  induction src generalizing state escapedValue stored with
  | nil =>
      obtain rfl : [] = stored := by simpa [unescapeLoop] using h
      exact Nat.le_refl 0
  | cons ch src ih =>
      rw [List.length_cons]
      cases state with
      | rest =>
          rw [unescapeLoop] at h
          split_ifs at h
          · exact (ih h).trans (Nat.le_succ _)
          · obtain ⟨tail, htail, rfl⟩ := Option.map_eq_some_iff.mp h
            exact Nat.succ_le_succ (ih htail)
          · obtain ⟨tail, htail, rfl⟩ := Option.map_eq_some_iff.mp h
            exact Nat.succ_le_succ (ih htail)
      | first =>
          obtain ⟨value, -, hrest⟩ := Option.bind_eq_some_iff.mp h
          exact (ih hrest).trans (Nat.le_succ _)
      | second =>
          obtain ⟨value, -, hrest⟩ := Option.bind_eq_some_iff.mp h
          obtain ⟨tail, htail, rfl⟩ := Option.map_eq_some_iff.mp hrest
          exact Nat.succ_le_succ (ih htail)

/-- A `%` costs a byte at least. -/
theorem length_unescapeLoop_lt {src stored : Bytes} {escapedValue : Nat} (hmem : percent ∈ src)
    (h : unescapeLoop .rest escapedValue src = some stored) : stored.length < src.length := by
  induction src generalizing stored with
  | nil => cases hmem
  | cons ch src ih =>
      rw [unescapeLoop] at h
      by_cases hpercent : ch = percent
      · rw [if_pos hpercent] at h
        exact Nat.lt_succ_of_le (length_unescapeLoop_le h)
      · have hrest := (List.mem_cons.mp hmem).resolve_left fun heq => hpercent heq.symm
        rw [if_neg hpercent] at h
        split_ifs at h <;>
        · obtain ⟨tail, htail, rfl⟩ := Option.map_eq_some_iff.mp h
          exact Nat.succ_lt_succ (ih hrest htail)

/-- Without a `%` every byte is kept, but for the `+`. -/
theorem unescapeLoop_of_no_percent {src : Bytes} (h : percent ∉ src) (escapedValue : Nat) :
    unescapeLoop .rest escapedValue src =
      some (src.map fun ch => if ch = plus then 32 else ch) := by
  induction src with
  | nil => rfl
  | cons ch src ih =>
      have hpercent : ch ≠ percent := fun heq => h (heq ▸ List.mem_cons_self)
      rw [unescapeLoop, if_neg hpercent, ih fun hmem => h (List.mem_cons_of_mem _ hmem)]
      split_ifs with hplus <;> simp [hplus]

/-- A text that the query syntax leaves alone. -/
structure Plain (bytes : Bytes) : Prop where
  no_ampersand : ampersand ∉ bytes
  no_plus : plus ∉ bytes
  no_percent : percent ∉ bytes
  no_numberSign : numberSign ∉ bytes

/-- Without escapes nothing is undone. -/
theorem cgiUnescapeChars_of_plain {bytes : Bytes} (hnul : 0 ∉ bytes) (hplus : plus ∉ bytes)
    (hpercent : percent ∉ bytes) : cgiUnescapeChars bytes = some bytes := by
  have hkept : bytes.map (fun ch => if ch = plus then 32 else ch) = bytes := by
    have hsame : ∀ ch ∈ bytes, (if ch = plus then 32 else ch) = ch := by
      intro ch hch
      have hne : ch ≠ plus := fun h => hplus (h ▸ hch)
      rw [if_neg hne]
    rw [List.map_congr_left hsame, List.map_id']
  rw [cgiUnescapeChars, unescapeLoop_of_no_percent hpercent, hkept, Option.map_some,
    cstr_eq_self hnul]

/-- A text without the byte is not cut. -/
theorem takeWhile_eq_self_of_not_mem {stop : UInt8} {bytes : Bytes} (h : stop ∉ bytes) :
    bytes.takeWhile (· != stop) = bytes := by
  apply List.takeWhile_eq_self_iff.mpr
  intro b hb
  have hne : b ≠ stop := fun heq => h (heq ▸ hb)
  simpa using hne

/-- A text that is not cut does not have it. -/
theorem not_mem_of_takeWhile_eq_self {stop : UInt8} {bytes : Bytes}
    (h : bytes.takeWhile (· != stop) = bytes) : stop ∉ bytes := by
  intro hmem
  have hne := List.takeWhile_eq_self_iff.mp h stop hmem
  simp at hne

/-- What of a field reaches its place in the query: the bytes before its first `#`
and `&`. -/
def arriving (field : Bytes) : Bytes :=
  (field.takeWhile (· != numberSign)).takeWhile (· != ampersand)

/-- A plain field arrives as it is. -/
theorem arriving_of_plain {field : Bytes} (h : Plain field) : arriving field = field := by
  rw [arriving, takeWhile_eq_self_of_not_mem h.no_numberSign,
    takeWhile_eq_self_of_not_mem h.no_ampersand]

/-- What the parser makes of what arrives of a field is the field itself exactly
when the field is plain: a `#`, a `&` and a `%` make it shorter, and a `+` is
replaced. -/
theorem unescaped_eq_iff {bytes : Bytes} (hnul : 0 ∉ bytes) :
    cgiUnescapeChars (arriving bytes) = some bytes ↔ Plain bytes := by
  constructor
  · intro heq
    obtain ⟨stored, hloop, hstored⟩ := Option.map_eq_some_iff.mp heq
    have hcstr : bytes.length ≤ stored.length := by
      rw [← hstored]
      exact (List.takeWhile_prefix _).length_le
    have hle := length_unescapeLoop_le hloop
    have hcut : (bytes.takeWhile (· != numberSign)) <+: bytes := List.takeWhile_prefix _
    have harriving : arriving bytes <+: bytes.takeWhile (· != numberSign) :=
      List.takeWhile_prefix _
    have hfront := harriving.length_le
    have hback := hcut.length_le
    have hnumber : bytes.takeWhile (· != numberSign) = bytes := hcut.eq_of_length (by omega)
    have hwhole : arriving bytes = bytes := (harriving.trans hcut).eq_of_length (by omega)
    have hampersand : bytes.takeWhile (· != ampersand) = bytes := by
      rw [arriving, hnumber] at hwhole
      exact hwhole
    rw [hwhole] at hloop hle
    have hpercent : percent ∉ bytes := by
      intro hmem
      have hlt := length_unescapeLoop_lt hmem hloop
      omega
    refine ⟨not_mem_of_takeWhile_eq_self hampersand, ?_, hpercent,
      not_mem_of_takeWhile_eq_self hnumber⟩
    -- nothing that the loop stores without a `%` is a `+`
    intro hmem
    rw [unescapeLoop_of_no_percent hpercent] at hloop
    rw [← hstored, ← Option.some.inj hloop] at hmem
    obtain ⟨ch, -, hch⟩ := List.mem_map.mp ((List.takeWhile_prefix _).subset hmem)
    split_ifs at hch with hplus
    · revert hch
      decide
    · exact hplus hch
  · intro hplain
    rw [arriving_of_plain hplain]
    exact cgiUnescapeChars_of_plain hnul hplain.no_plus hplain.no_percent

/-! ## Parsing the page's query -/

/-- Up to the separator, and what is behind it. -/
theorem scanTo_of_not_mem {stop : UInt8} {front : Bytes} (h : stop ∉ front) (rest : Bytes) :
    scanTo stop (front ++ stop :: rest) = (front, some rest) := by
  have hne : ∀ b ∈ front, (b != stop) = true := by
    intro b hb
    have hb' : b ≠ stop := fun heq => h (heq ▸ hb)
    simpa using hb'
  rw [scanTo, List.takeWhile_append_of_pos hne, List.dropWhile_append_of_pos hne,
    List.takeWhile_cons_of_neg (by simp), List.dropWhile_cons_of_neg (by simp), List.append_nil]
  rfl

/-- One round of the parser that finds a name. -/
theorem cgiParseFormInput_eq {data name rest : Bytes}
    (h : scanTo equals data = (name, some rest)) :
    cgiParseFormInput data =
      (cgiUnescapeChars name).bind fun attr =>
      (cgiUnescapeChars (scanTo ampersand rest).1).bind fun value =>
      ((scanTo ampersand rest).2.elim (some []) cgiParseFormInput).bind fun entries =>
        some (⟨attr, value⟩ :: entries) := by
  rw [cgiParseFormInput]
  split
  · rename_i hname
    rw [h] at hname
    cases hname
  · rename_i hname
    rw [h] at hname
    cases hname
    split
    · rename_i hvalue
      rw [hvalue]
      rfl
    · rename_i hvalue
      rw [hvalue]
      rfl

/-- A query that begins with a name has its first value up to the next `&`. -/
theorem firstValue_head {name rest : Bytes} {form : List FormEntry} (hname : equals ∉ name)
    (hplain : cgiUnescapeChars name = some name)
    (hform : cgiParseFormInput (name ++ equals :: rest) = some form) :
    cgiUnescapeChars (rest.takeWhile (· != ampersand)) = firstValue form name := by
  rw [cgiParseFormInput_eq (scanTo_of_not_mem hname rest), hplain, Option.bind_some] at hform
  obtain ⟨value, hvalue, hform⟩ := Option.bind_eq_some_iff.mp hform
  obtain ⟨entries, -, hform⟩ := Option.bind_eq_some_iff.mp hform
  obtain rfl := Option.some.inj hform
  rw [firstValue, List.find?_cons_of_pos (by simp)]
  exact hvalue

/-- Another name is looked for behind the `&`. -/
theorem firstValue_tail {name attr value key behind : Bytes} {form : List FormEntry}
    (hname : equals ∉ name) (hattr : cgiUnescapeChars name = some attr) (hkey : attr ≠ key)
    (hvalue : ampersand ∉ value)
    (hform : cgiParseFormInput (name ++ equals :: (value ++ ampersand :: behind)) = some form) :
    ∃ entries, cgiParseFormInput behind = some entries ∧
      firstValue form key = firstValue entries key := by
  rw [cgiParseFormInput_eq (scanTo_of_not_mem hname _), scanTo_of_not_mem hvalue, hattr,
    Option.bind_some] at hform
  obtain ⟨stored, -, hform⟩ := Option.bind_eq_some_iff.mp hform
  obtain ⟨entries, hentries, hform⟩ := Option.bind_eq_some_iff.mp hform
  obtain rfl := Option.some.inj hform
  refine ⟨entries, hentries, ?_⟩
  rw [firstValue, List.find?_cons_of_neg (by simp [hkey])]
  rfl

/-- A text is cut at its first such byte. -/
theorem takeWhile_append_stop {stop : UInt8} (front rest : Bytes) :
    (front ++ stop :: rest).takeWhile (· != stop) = front.takeWhile (· != stop) := by
  induction front with
  | nil => simp
  | cons b front ih =>
      rw [List.cons_append, List.takeWhile_cons, List.takeWhile_cons, ih]

/-- The query of the URL that `login()` asks for. -/
theorem queryString_loginUrl (username password : Bytes) :
    queryString (loginUrl username password) =
      text "username" ++ equals :: ajaxUrl (username ++ ampersand :: (text "password" ++
        equals :: password)) := by
  have hurl : loginUrl username password =
      text "/cgi-bin/login.cgi" ++ questionMark :: (text "username" ++ equals ::
        (username ++ ampersand :: (text "password" ++ equals :: password))) := by
    have hfront : text "/cgi-bin/login.cgi?username=" =
        text "/cgi-bin/login.cgi" ++ questionMark :: (text "username" ++ [equals]) := by decide
    have hmiddle : text "&password=" = ampersand :: (text "password" ++ [equals]) := by decide
    rw [loginUrl, hfront, hmiddle]
    simp
  have hpath : ∀ b ∈ text "/cgi-bin/login.cgi", (b != numberSign) = true :=
    List.all_eq_true.mp (by decide)
  have hname : ∀ b ∈ text "username", (b != numberSign) = true :=
    List.all_eq_true.mp (by decide)
  have hsearch : ∀ b ∈ text "/cgi-bin/login.cgi", (b != questionMark) = true :=
    List.all_eq_true.mp (by decide)
  rw [queryString, hurl, ajaxUrl, List.takeWhile_append_of_pos hpath,
    List.takeWhile_cons_of_pos (by decide), List.takeWhile_append_of_pos hname,
    List.takeWhile_cons_of_pos (by decide), List.dropWhile_append_of_pos hsearch,
    List.dropWhile_cons_of_neg (by simp), List.tail_cons, ← ajaxUrl]

/-- Nothing of a URL behind a `#` arrives, and a field's value ends at a `&`. -/
theorem arriving_append (field rest : Bytes) :
    (ajaxUrl (field ++ ampersand :: rest)).takeWhile (· != ampersand) = arriving field := by
  have hcomm : ∀ bytes : Bytes, (bytes.takeWhile (· != numberSign)).takeWhile (· != ampersand) =
      (bytes.takeWhile (· != ampersand)).takeWhile (· != numberSign) := by
    intro bytes
    rw [List.takeWhile_takeWhile, List.takeWhile_takeWhile]
    simp only [and_comm]
  rw [ajaxUrl, arriving, hcomm, hcomm, takeWhile_append_stop]

/-- The user name the program finds: what arrives of the field, with its escapes
undone. -/
theorem firstValue_username {username password : Bytes} {form : List FormEntry}
    (hform : cgiParseFormInput (queryString (loginUrl username password)) = some form) :
    cgiUnescapeChars (arriving username) = firstValue form (text "username") := by
  rw [queryString_loginUrl] at hform
  rw [← firstValue_head (by decide) (by decide) hform, arriving_append]

/-- Behind a plain user name the query has the password. -/
theorem queryString_of_plain {username : Bytes} (h : Plain username) (password : Bytes) :
    queryString (loginUrl username password) =
      text "username" ++ equals :: (username ++ ampersand :: (text "password" ++
        equals :: ajaxUrl password)) := by
  have huser : ∀ b ∈ username, (b != numberSign) = true := by
    intro b hb
    have hne : b ≠ numberSign := fun heq => h.no_numberSign (heq ▸ hb)
    simpa using hne
  have hname : ∀ b ∈ text "password", (b != numberSign) = true :=
    List.all_eq_true.mp (by decide)
  rw [queryString_loginUrl, ajaxUrl, List.takeWhile_append_of_pos huser,
    List.takeWhile_cons_of_pos (by decide), List.takeWhile_append_of_pos hname,
    List.takeWhile_cons_of_pos (by decide), ← ajaxUrl]

/-- The password it finds, behind a plain user name. -/
theorem firstValue_password {username password : Bytes} {form : List FormEntry}
    (h : Plain username)
    (hform : cgiParseFormInput (queryString (loginUrl username password)) = some form) :
    cgiUnescapeChars (arriving password) = firstValue form (text "password") := by
  rw [queryString_of_plain h] at hform
  have hattr : cgiUnescapeChars (text "username") = some (text "username") := by decide
  have hkey : text "username" ≠ text "password" := by decide
  obtain ⟨entries, hentries, hfirst⟩ :=
    firstValue_tail (by decide) hattr hkey h.no_ampersand hform
  rw [hfirst, ← firstValue_head (by decide) (by decide) hentries]
  rfl

/-- Plain fields are parsed without a read outside the table. -/
theorem cgiParseFormInput_of_plain {username password : Bytes} (huser : Plain username)
    (hpassword : Plain password) (hnul : 0 ∉ username ∧ 0 ∉ password) :
    cgiParseFormInput (queryString (loginUrl username password)) =
      some [⟨text "username", username⟩, ⟨text "password", password⟩] := by
  have hlast : scanTo ampersand password = (password, none) := by
    rw [scanTo, takeWhile_eq_self_of_not_mem hpassword.no_ampersand,
      List.dropWhile_eq_nil_iff.mpr (List.takeWhile_eq_self_iff.mp
        (takeWhile_eq_self_of_not_mem hpassword.no_ampersand))]
    rfl
  have hcut : ajaxUrl password = password :=
    takeWhile_eq_self_of_not_mem hpassword.no_numberSign
  have hname : cgiUnescapeChars (text "username") = some (text "username") := by decide
  have hkey : cgiUnescapeChars (text "password") = some (text "password") := by decide
  have hbehind : cgiParseFormInput (text "password" ++ equals :: password) =
      some [⟨text "password", password⟩] := by
    rw [cgiParseFormInput_eq (scanTo_of_not_mem (by decide) _), hlast, hkey,
      cgiUnescapeChars_of_plain hnul.2 hpassword.no_plus hpassword.no_percent]
    rfl
  rw [queryString_of_plain huser, hcut, cgiParseFormInput_eq (scanTo_of_not_mem (by decide) _),
    scanTo_of_not_mem huser.no_ampersand, hname,
    cgiUnescapeChars_of_plain hnul.1 huser.no_plus huser.no_percent, Option.elim_some, hbehind]
  rfl

/-- The program finds the two fields as they were typed. -/
def QueryAgrees (username password : Field) : Prop :=
  ∃ form, cgiParseFormInput (queryString (loginUrl username.bytes password.bytes)) = some form ∧
    firstValue form (text "username") = some username.bytes ∧
    firstValue form (text "password") = some password.bytes

/-- A field of the page holds no NUL. -/
theorem Field.no_nul (field : Field) : 0 ∉ field.bytes := by
  intro h
  have hlow := (field.printable 0 h).1
  revert hlow
  decide

/-- **Page and parser agree** exactly on fields without `&`, `+`, `%` and `#`. -/
theorem query_agrees_iff (username password : Field) :
    QueryAgrees username password ↔ Plain username.bytes ∧ Plain password.bytes := by
  constructor
  · intro h
    obtain ⟨form, hform, husername, hpassword⟩ := h
    have huser : Plain username.bytes :=
      (unescaped_eq_iff username.no_nul).mp ((firstValue_username hform).trans husername)
    exact ⟨huser, (unescaped_eq_iff password.no_nul).mp
      ((firstValue_password huser hform).trans hpassword)⟩
  · intro h
    have hform := cgiParseFormInput_of_plain h.1 h.2 ⟨username.no_nul, password.no_nul⟩
    exact ⟨_, hform, (firstValue_username hform).symm.trans
        ((unescaped_eq_iff username.no_nul).mpr h.1),
      (firstValue_password h.1 hform).symm.trans ((unescaped_eq_iff password.no_nul).mpr h.2)⟩

/-- A `+` in the user name arrives as a space. -/
theorem query_disagrees_on_plus :
    ¬ QueryAgrees ⟨text "a+b", by decide, by decide⟩ ⟨text "c", by decide, by decide⟩ := by
  intro h
  obtain ⟨form, hform, husername, -⟩ := h
  have harrived := (firstValue_username hform).trans husername
  revert harrived
  decide

end Login
