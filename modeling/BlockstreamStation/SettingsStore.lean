import BlockstreamStation.CText

/-!
# The settings file

`server/cgi-bin/general.h` keeps settings in a text file of `name=value` lines
with `#` comments.  `get_value` reads the file line by line and returns the
value of the first line whose key is `name`; `set_value` rewrites the file in
place, replacing the lines that begin with `name`.

The first part embeds the two functions as the source computes them, buffers
included.  The second states the line grammar on its own (`setting`,
`definition`) and shows that `get_value` reads by it (`getValue_eq`); the third
says the same in words (`Defines`, `get_value_grammar`).
-/

namespace Settings

open CText

def hash : UInt8 := 35

def equalSign : UInt8 := 61

/-! ## Reading -/

/-- Strip white space off the end. -/
def rstrip (s : Bytes) : Bytes := s.rdropWhile isSpace

/-- From the first character that is not white space. -/
def lskip (s : Bytes) : Bytes := s.dropWhile isSpace

/-- The loop condition of `find_char_or_comment`. -/
def isBefore (c b : UInt8) : Bool := b != c && b != hash

/-- The text before and the text from the first `c` or `#`. -/
def findCharOrComment (s : Bytes) (c : UInt8) : Bytes × Bytes :=
  (s.takeWhile (isBefore c), s.dropWhile (isBefore c))

/-- The part of `get_value`'s loop behind the comment check. -/
def matchStart (name start : Bytes) : Option Bytes :=
  match findCharOrComment start equalSign with
  | (_, []) => none
  | (key, c :: rest) =>
      if c ≠ equalSign then none
      else if name ≠ rstrip key then none
      else some (rstrip (findCharOrComment (lskip rest) hash).1)

/-- The body of `get_value`'s loop: the value, if this line has the key
`name`. -/
def matchLine (name line : Bytes) : Option Bytes :=
  match lskip (rstrip (cstr line)) with
  | [] => none
  | c :: rest => if c = hash then none else matchStart name (c :: rest)

/-- `get_value` on a file that opens: the value found, if any. -/
def getValue (maxLine : Nat) (content name : Bytes) : Option Bytes :=
  (fgetsLines maxLine content).findSome? (matchLine name)

/-- The memory the caller passes as `ret_buf`: an array of its own, or a string
literal. -/
inductive RetBuf
  | array
  | literal
deriving DecidableEq, Repr

/-- `get_value` as its caller sees it; `file` is `none` when `fopen` fails.  When
nothing is found the function stores an empty string into `ret_buf`, which is
undefined (`none`) for a literal. -/
def getValueInto (retBuf : RetBuf) (maxLine : Nat) (file : Option Bytes) (name : Bytes) :
    Option Bytes :=
  match file.bind (getValue maxLine · name), retBuf with
  | some value, _ => some value
  | none, .array => some []
  | none, .literal => none

/-! ## Writing -/

/-- The line `set_value` puts in place of one that begins with `name`. -/
def replacement (name newValue : Bytes) : Bytes :=
  name ++ [equalSign] ++ newValue ++ [newline]

/-- Size of the static buffer `write_file_data`. -/
def writeFileDataSize : Nat := 1000

/-- The loop of `set_value`: append each line, or its replacement, to
`write_file_data`.  `none` is a `strcat` beyond the end of a buffer. -/
def rewriteLoop (maxLine : Nat) (name newValue : Bytes) :
    List Bytes → Bytes → Option Bytes
  | [], writeFileData => some writeFileData
  | line :: rest, writeFileData =>
      if name <+: cstr line then
        let line := replacement name newValue
        if line.length < maxLine ∧ (writeFileData ++ line).length < writeFileDataSize then
          rewriteLoop maxLine name newValue rest (writeFileData ++ line)
        else none
      else
        let line := cstr line
        if (writeFileData ++ line).length < writeFileDataSize then
          rewriteLoop maxLine name newValue rest (writeFileData ++ line)
        else none

/-- `set_value` on a file that opens.  The second `fopen` does not truncate, so
bytes behind the new content stay. -/
def setValue (maxLine : Nat) (content name newValue : Bytes) : Option Bytes :=
  (rewriteLoop maxLine name newValue (fgetsLines maxLine content) []).map
    fun writeFileData => writeFileData ++ content.drop writeFileData.length

/-! ## The line grammar -/

/-- Key and value of a trimmed line. -/
def settingFrom (start : Bytes) : Option (Bytes × Bytes) :=
  match start.dropWhile (isBefore equalSign) with
  | [] => none
  | b :: rest =>
      if b = equalSign then
        some (trim (start.takeWhile (isBefore equalSign)), trim (rest.takeWhile (· != hash)))
      else none

/-- Key and value of a line: the text before the first `=`, which no `#`
precedes, and the text behind it up to the next `#`, both trimmed. -/
def setting (line : Bytes) : Option (Bytes × Bytes) := settingFrom (trim line)

/-- What a line defines `key` to be. -/
def definition (key line : Bytes) : Option Bytes :=
  (setting line).bind fun (k, value) => if k = key then some value else none

/-- The first definition of `key` among lines. -/
def firstDefinition (key : Bytes) (lines : List Bytes) : Option Bytes :=
  lines.findSome? (definition key)

theorem firstDefinition_cons (key line : Bytes) (rest : List Bytes) :
    firstDefinition key (line :: rest) =
      (definition key line).or (firstDefinition key rest) := by
  unfold firstDefinition
  rw [List.findSome?_cons]
  cases definition key line <;> rfl

theorem isBefore_hash : isBefore hash = (· != hash) := by
  funext b
  simp [isBefore]

/-- Cutting at a comment and skipping white space in front commute: `#` is not
white space. -/
theorem takeWhile_hash_dropWhile_isSpace (bytes : Bytes) :
    (bytes.dropWhile isSpace).takeWhile (· != hash) =
      (bytes.takeWhile (· != hash)).dropWhile isSpace := by
  induction bytes with
  | nil => rfl
  | cons b rest ih =>
      by_cases hb : isSpace b = true
      · have hne : b ≠ hash := by
          intro heq
          subst heq
          exact absurd hb (by decide)
        rw [List.dropWhile_cons_of_pos hb, ih, List.takeWhile_cons_of_pos (by simp [hne]),
          List.dropWhile_cons_of_pos hb]
      · rw [List.dropWhile_cons_of_neg hb]
        by_cases hhash : b = hash
        · simp [hhash]
        · rw [List.takeWhile_cons_of_pos (by simp [hhash]), List.dropWhile_cons_of_neg hb]

/-- What `lskip` leaves does not begin with white space. -/
theorem head_dropWhile_isSpace (bytes : Bytes) (b : UInt8)
    (h : (bytes.dropWhile isSpace).head? = some b) : isSpace b = false := by
  have hnot := List.head?_dropWhile_not isSpace bytes
  rw [h] at hnot
  simpa using hnot

/-- The key of a trimmed line has no white space in front. -/
theorem trim_takeWhile (start : Bytes) (p : UInt8 → Bool)
    (h : ∀ b, start.head? = some b → isSpace b = false) :
    trim (start.takeWhile p) = rstrip (start.takeWhile p) := by
  rw [← rdropWhile_dropWhile_isSpace, dropWhile_eq_self_of_head]
  · rfl
  · intro b hb
    cases start with
    | nil => simp at hb
    | cons c rest =>
        by_cases hc : p c = true
        · rw [List.takeWhile_cons_of_pos hc] at hb
          exact h b hb
        · rw [List.takeWhile_cons_of_neg hc] at hb
          simp at hb

/-- From a trimmed line on, the loop body reads key and value by the grammar. -/
theorem matchStart_eq {name start : Bytes}
    (hhead : ∀ b, start.head? = some b → isSpace b = false) :
    matchStart name start =
      (settingFrom start).bind fun (k, value) => if k = name then some value else none := by
  unfold matchStart settingFrom findCharOrComment
  cases start.dropWhile (isBefore equalSign) with
  | nil => rfl
  | cons b rest =>
      by_cases hb : b = equalSign
      · have hvalue : rstrip ((lskip rest).takeWhile (isBefore hash)) =
            trim (rest.takeWhile (· != hash)) := by
          rw [isBefore_hash, lskip, takeWhile_hash_dropWhile_isSpace, rstrip,
            rdropWhile_dropWhile_isSpace]
        by_cases hkey : name = rstrip (start.takeWhile (isBefore equalSign))
        · simp [hb, hvalue, trim_takeWhile start _ hhead, hkey]
        · simp [hb, trim_takeWhile start _ hhead, hkey, Ne.symm hkey]
      · simp [hb]

/-- One round of `get_value`'s loop reads the C string in `line` by the grammar;
an empty line and a comment have no `=` in front of a `#`. -/
theorem matchLine_eq (name line : Bytes) :
    matchLine name line = definition name (cstr line) := by
  have hhead : ∀ b, (trim (cstr line)).head? = some b → isSpace b = false :=
    head_dropWhile_isSpace _
  have hstart : lskip (rstrip (cstr line)) = trim (cstr line) := rfl
  unfold matchLine definition setting
  rw [hstart]
  cases hline : trim (cstr line) with
  | nil => rfl
  | cons b rest =>
      by_cases hb : b = hash
      · have hstop : (b :: rest).dropWhile (isBefore equalSign) = b :: rest :=
          List.dropWhile_cons_of_neg (by simp [isBefore, hb])
        have hne : b ≠ equalSign := by
          rw [hb]
          decide
        have hnone : settingFrom (b :: rest) = none := by
          rw [settingFrom, hstop]
          exact if_neg hne
        rw [hnone]
        simp [hb]
      · rw [← matchStart_eq (hline ▸ hhead)]
        simp [hb]

theorem matchLine_eq_definition {name line : Bytes} (hnul : 0 ∉ line) :
    matchLine name line = definition name line := by
  rw [matchLine_eq, cstr_eq_self hnul]

/-- The strings `fgets` returns hold only bytes of the stream. -/
theorem mem_of_mem_fgetsLines {size : Nat} {stream line : Bytes} {b : UInt8}
    (hline : line ∈ fgetsLines size stream) (hb : b ∈ line) : b ∈ stream := by
  have h : b ∈ (fgetsLines size stream).flatten := List.mem_flatten.mpr ⟨line, hline, hb⟩
  rwa [flatten_fgetsLines] at h

/-- The strings `fgets` leaves in `line`, one call after another: what it reads,
each up to its first NUL. -/
def strings (maxLine : Nat) (content : Bytes) : List Bytes :=
  (fgetsLines maxLine content).map cstr

/-- **`get_value` follows the grammar.**  It returns the first definition among
the strings that `fgets` leaves. -/
theorem getValue_eq (maxLine : Nat) (content name : Bytes) :
    getValue maxLine content name = firstDefinition name (strings maxLine content) := by
  rw [getValue, firstDefinition, strings, List.findSome?_map]
  exact congrArg (List.findSome? · _) (funext (matchLine_eq name))

/-- In a file without NULs in which every line fits, the strings are the lines. -/
theorem strings_eq_lines {maxLine : Nat} {content : Bytes} (hnul : 0 ∉ content)
    (hfit : ∀ line ∈ lines content, line.length ≤ maxLine - 1) :
    strings maxLine content = lines content := by
  have hcstr : ∀ line ∈ fgetsLines maxLine content, cstr line = id line :=
    fun line hline => cstr_eq_self fun h => hnul (mem_of_mem_fgetsLines hline h)
  rw [strings, List.map_congr_left hcstr, List.map_id, fgetsLines_eq_lines hfit]

theorem getValue_eq_lines {maxLine : Nat} {content : Bytes} (hnul : 0 ∉ content)
    (hfit : ∀ line ∈ lines content, line.length ≤ maxLine - 1) (name : Bytes) :
    getValue maxLine content name = firstDefinition name (lines content) := by
  rw [getValue_eq, strings_eq_lines hnul hfit]

/-! ## The grammar spelled out -/

/-- The line has the key `name` and this value: trimmed, it is not empty and no
comment, the first `=` or `#` in it is an `=`, the text in front of that `=` is
`name` and the text behind it, up to the next `#`, is `value`, both up to white
space around them. -/
structure Defines (name line value : Bytes) : Prop where
  nonempty : trim line ≠ []
  no_comment : (trim line).head? ≠ some hash
  parts : ∃ key rest, trim line = key ++ equalSign :: rest ∧ equalSign ∉ key ∧ hash ∉ key ∧
    trim key = name ∧ trim (rest.takeWhile (· != hash)) = value

/-- The first of the lines that has the key `name` has this value. -/
def FirstDefines (name : Bytes) (lines : List Bytes) (value : Bytes) : Prop :=
  ∃ before line after, lines = before ++ line :: after ∧
    (∀ l ∈ before, ∀ v, ¬ Defines name l v) ∧ Defines name line value

theorem isBefore_equalSign_iff {b : UInt8} :
    isBefore equalSign b = true ↔ b ≠ equalSign ∧ b ≠ hash := by
  simp [isBefore]

/-- The scan for the first `=` or `#` splits a text with an `=` in front. -/
theorem settingFrom_split {key rest : Bytes} (hequal : equalSign ∉ key) (hhash : hash ∉ key) :
    settingFrom (key ++ equalSign :: rest) =
      some (trim key, trim (rest.takeWhile (· != hash))) := by
  have hbefore : ∀ b ∈ key, isBefore equalSign b = true := by
    intro b hb
    apply isBefore_equalSign_iff.mpr
    exact ⟨fun h => hequal (h ▸ hb), fun h => hhash (h ▸ hb)⟩
  have hstop : ¬ isBefore equalSign equalSign = true := by simp [isBefore]
  have hdrop : (key ++ equalSign :: rest).dropWhile (isBefore equalSign) = equalSign :: rest := by
    rw [List.dropWhile_append_of_pos hbefore, List.dropWhile_cons_of_neg hstop]
  have htake : (key ++ equalSign :: rest).takeWhile (isBefore equalSign) = key := by
    rw [List.takeWhile_append_of_pos hbefore, List.takeWhile_cons_of_neg hstop, List.append_nil]
  rw [settingFrom, hdrop, htake]
  simp

/-- Where the scan finds an `=`, the text splits there. -/
theorem exists_split_of_settingFrom {start key value : Bytes}
    (h : settingFrom start = some (key, value)) :
    ∃ front rest, start = front ++ equalSign :: rest ∧ equalSign ∉ front ∧ hash ∉ front ∧
      trim front = key ∧ trim (rest.takeWhile (· != hash)) = value := by
  unfold settingFrom at h
  cases hdrop : start.dropWhile (isBefore equalSign) with
  | nil => simp [hdrop] at h
  | cons b rest =>
      simp only [hdrop] at h
      split at h
      · rename_i hb
        subst hb
        have hfront : ∀ c ∈ start.takeWhile (isBefore equalSign),
            c ≠ equalSign ∧ c ≠ hash :=
          fun c hc => isBefore_equalSign_iff.mp (List.mem_takeWhile_imp hc)
        obtain ⟨hkey, hvalue⟩ := Prod.mk.inj (Option.some.inj h)
        refine ⟨start.takeWhile (isBefore equalSign), rest, ?_, ?_, ?_, hkey, hvalue⟩
        · rw [← hdrop, List.takeWhile_append_dropWhile]
        · exact fun hmem => (hfront _ hmem).1 rfl
        · exact fun hmem => (hfront _ hmem).2 rfl
      · cases h

/-- A line defines a key by the grammar exactly when the words say so. -/
theorem definition_eq_some_iff {name line value : Bytes} :
    definition name line = some value ↔ Defines name line value := by
  unfold definition setting
  constructor
  · intro h
    obtain ⟨⟨key, v⟩, hsetting, hmatch⟩ := Option.bind_eq_some_iff.mp h
    obtain ⟨front, rest, hsplit, hequal, hhash, hkey, hvalue⟩ :=
      exists_split_of_settingFrom hsetting
    have hname : key = name ∧ v = value := by
      simpa using hmatch
    refine ⟨?_, ?_, front, rest, hsplit, hequal, hhash, hkey.trans hname.1,
      hvalue.trans hname.2⟩
    · rw [hsplit]
      simp
    · rw [hsplit]
      cases front with
      | nil => simp [equalSign, hash]
      | cons c front =>
          have hne : c ≠ hash := fun heq => hhash (heq ▸ List.mem_cons_self)
          simp [hne]
  · intro h
    obtain ⟨key, rest, hsplit, hequal, hhash, hkey, hvalue⟩ := h.parts
    rw [hsplit, settingFrom_split hequal hhash, Option.bind_some]
    simp [hkey, hvalue]

/-- A line that defines `name` as nothing at all. -/
theorem definition_eq_none_iff {name line : Bytes} :
    definition name line = none ↔ ∀ value, ¬ Defines name line value := by
  rw [Option.eq_none_iff_forall_ne_some]
  exact forall_congr' fun value => not_congr definition_eq_some_iff

theorem firstDefinition_eq_some_iff {name value : Bytes} {lines : List Bytes} :
    firstDefinition name lines = some value ↔ FirstDefines name lines value := by
  rw [firstDefinition, List.findSome?_eq_some_iff]
  constructor
  · intro h
    obtain ⟨before, line, after, hlines, hline, hbefore⟩ := h
    exact ⟨before, line, after, hlines, fun l hl => definition_eq_none_iff.mp (hbefore l hl),
      definition_eq_some_iff.mp hline⟩
  · intro h
    obtain ⟨before, line, after, hlines, hbefore, hline⟩ := h
    exact ⟨before, line, after, hlines, definition_eq_some_iff.mpr hline,
      fun l hl => definition_eq_none_iff.mpr (hbefore l hl)⟩

/-- **`get_value` parses its grammar.**  On a file without NULs whose lines fit,
it returns the value of the first line that has the key, and the empty string
if there is none.  With a buffer of one byte `fgets` would return without
reading. -/
theorem get_value_grammar {maxLine : Nat} {content : Bytes} (_hroom : 2 ≤ maxLine)
    (hnul : 0 ∉ content) (hfit : ∀ line ∈ lines content, line.length ≤ maxLine - 1)
    (name value : Bytes) :
    getValueInto .array maxLine (some content) name = some value ↔
      FirstDefines name (lines content) value ∨
        (∀ line ∈ lines content, ∀ v, ¬ Defines name line v) ∧ value = [] := by
  unfold getValueInto
  rw [Option.bind_some, getValue_eq_lines hnul hfit]
  cases hfirst : firstDefinition name (lines content) with
  | some found =>
      obtain ⟨before, line, after, hlines, -, hline⟩ := firstDefinition_eq_some_iff.mp hfirst
      have hmem : line ∈ lines content := by
        rw [hlines]
        exact List.mem_append_right _ List.mem_cons_self
      rw [← firstDefinition_eq_some_iff, hfirst]
      constructor
      · exact fun h => .inl h
      · intro h
        rcases h with h | ⟨hnone, -⟩
        · exact h
        · exact absurd hline (hnone line hmem found)
  | none =>
      have hnone : ∀ line ∈ lines content, ∀ v, ¬ Defines name line v := fun line hline =>
        definition_eq_none_iff.mp (List.findSome?_eq_none_iff.mp hfirst line hline)
      rw [← firstDefinition_eq_some_iff, hfirst]
      constructor
      · intro h
        exact .inr ⟨hnone, (Option.some.inj h).symm⟩
      · intro h
        rcases h with h | ⟨-, hvalue⟩
        · cases h
        · rw [hvalue]

/-- A comment, white space on all sides, a trailing comment and a second
definition: the value is read off the second line. -/
theorem get_value_grammar_commented :
    let content := text "# user=a\n user = b=c # x\nuser=d\n"
    (2 ≤ 200 ∧ 0 ∉ content ∧ ∀ line ∈ lines content, line.length ≤ 200 - 1) ∧
    (getValueInto .array 200 (some content) (text "user") = some (text "b=c") ↔
      FirstDefines (text "user") (lines content) (text "b=c") ∨
        (∀ line ∈ lines content, ∀ v, ¬ Defines (text "user") line v) ∧ text "b=c" = []) ∧
    getValueInto .array 200 (some content) (text "user") = some (text "b=c") := by
  intro content
  have hnul : 0 ∉ content := by decide
  have hfit : ∀ line ∈ lines content, line.length ≤ 200 - 1 := by decide
  exact ⟨⟨by decide, hnul, hfit⟩, get_value_grammar (by decide) hnul hfit _ _, by decide⟩

end Settings
