import BlockstreamStation.SettingsStore

/-!
# What `set_value` does to the other keys

`set_value` takes a line for `name`'s when the line begins with the bytes of
`name`, and it writes the new content over the old without truncating.  Other
keys are touched in three ways: a line whose key merely begins with `name` is
replaced; a line that is kept and has no newline to write (the last one, or one
that a NUL cuts short) is joined by what comes behind it; and, when the new
content is shorter, the end of the old content is left behind it.

Up to the first string that is joined, the strings read are written as lines of
their own (`front`).  Reading the file afterwards is reading these, replaced
where they begin with `name`, and then the text written behind them
(`getValue_setValue`).  `frame_law_iff` turns this into the exact condition under
which another key keeps its definition, in a file of any bytes.
-/

namespace Settings

open CText

/-- A name or value as `set_value` is meant to be given. -/
structure Clean (bytes : Bytes) : Prop where
  no_nul : 0 ∉ bytes
  no_newline : newline ∉ bytes
  no_hash : hash ∉ bytes
  trimmed : Trimmed bytes

instance (bytes : Bytes) : Decidable (Clean bytes) :=
  decidable_of_iff (0 ∉ bytes ∧ newline ∉ bytes ∧ hash ∉ bytes ∧ Trimmed bytes)
    ⟨fun h => ⟨h.1, h.2.1, h.2.2.1, h.2.2.2⟩,
      fun h => ⟨h.no_nul, h.no_newline, h.no_hash, h.trimmed⟩⟩

/-! ## The replaced lines -/

theorem rstrip_append_newline (bytes : Bytes) :
    rstrip (bytes ++ [newline]) = rstrip bytes :=
  List.rdropWhile_concat_pos _ _ _ (by decide)

/-- The line `set_value` writes has its newline at the end. -/
theorem replacement_eq (name newValue : Bytes) :
    replacement name newValue = (name ++ equalSign :: newValue) ++ [newline] := by
  simp [replacement]

theorem replacement_terminated {name newValue : Bytes} (hname : Clean name)
    (hvalue : Clean newValue) : Terminated (replacement name newValue) := by
  refine ⟨name ++ equalSign :: newValue, ?_, replacement_eq name newValue⟩
  simp only [List.mem_append, List.mem_cons, not_or]
  exact ⟨hname.no_newline, by decide, hvalue.no_newline⟩

/-- Its newline is the only white space around it. -/
theorem trim_replacement {name newValue : Bytes} (hname : Clean name)
    (hvalue : Clean newValue) :
    trim (replacement name newValue) = name ++ equalSign :: newValue := by
  have hspace : isSpace equalSign = false := by decide
  have hstrip : rstrip (name ++ equalSign :: newValue) = name ++ equalSign :: newValue := by
    apply rdropWhile_eq_self_of_last
    intro b hb
    cases hv : newValue.getLast? with
    | none =>
        have hnil : newValue = [] := List.getLast?_eq_none_iff.mp hv
        have hlast : equalSign = b := by simpa [hnil] using hb
        exact hlast ▸ hspace
    | some c =>
        have hlast : c = b := by simpa [List.getLast?_cons, hv] using hb
        exact hlast ▸ hvalue.trimmed.2 c hv
  rw [replacement_eq, trim]
  change (rstrip _).dropWhile isSpace = _
  rw [rstrip_append_newline, hstrip]
  apply dropWhile_eq_self_of_head
  intro b hb
  cases name with
  | nil =>
      have hfirst : equalSign = b := by simpa using hb
      exact hfirst ▸ hspace
  | cons c rest =>
      have hfirst : c = b := by simpa using hb
      exact hfirst ▸ hname.trimmed.1 c rfl

/-- The line `set_value` writes is read back as `name` and the new value. -/
theorem setting_replacement {name newValue : Bytes} (hname : Clean name)
    (hequal : equalSign ∉ name) (hvalue : Clean newValue) :
    setting (replacement name newValue) = some (name, newValue) := by
  have hcomment : newValue.takeWhile (· != hash) = newValue := by
    apply List.takeWhile_eq_self_iff.mpr
    intro b hb
    have hne : b ≠ hash := fun h => hvalue.no_hash (h ▸ hb)
    simpa using hne
  rw [setting, trim_replacement hname hvalue, settingFrom_split hequal hname.no_hash, hcomment,
    trim_of_trimmed hname.trimmed, trim_of_trimmed hvalue.trimmed]

/-- The line `set_value` writes defines no other key. -/
theorem definition_replacement {name newValue key : Bytes} (hname : Clean name)
    (hequal : equalSign ∉ name) (hvalue : Clean newValue) (hkey : key ≠ name) :
    definition key (replacement name newValue) = none := by
  rw [definition, setting_replacement hname hequal hvalue]
  simp [hkey.symm]

/-! ## The rewritten content -/

/-- A line after `set_value` has treated it. -/
def rewriteLine (name newValue line : Bytes) : Bytes :=
  if name <+: line then replacement name newValue else line

/-- When the loop stays inside its buffers it produces the rewritten lines, each
read as a C string, and every replacement it made fits the line buffer. -/
theorem rewriteLoop_eq {maxLine : Nat} {name newValue : Bytes} :
    ∀ {lines : List Bytes} {written result : Bytes},
      rewriteLoop maxLine name newValue lines written = some result →
      result = written ++ (lines.map fun line => rewriteLine name newValue (cstr line)).flatten ∧
        ((∃ line ∈ lines, name <+: cstr line) →
          (replacement name newValue).length < maxLine) := by
  intro lines
  induction lines with
  | nil =>
      intro written result h
      have hresult : written = result := by simpa [rewriteLoop] using h
      simp [hresult]
  | cons line rest ih =>
      intro written result h
      rw [rewriteLoop] at h
      by_cases hhit : name <+: cstr line
      · rw [if_pos hhit] at h
        simp only at h
        split at h
        · rename_i hfits
          obtain ⟨hresult, _⟩ := ih h
          refine ⟨?_, fun _ => hfits.1⟩
          simp [hresult, rewriteLine, hhit]
        · cases h
      · rw [if_neg hhit] at h
        simp only at h
        split at h
        · obtain ⟨hresult, hfits⟩ := ih h
          refine ⟨by simp [hresult, rewriteLine, hhit], ?_⟩
          intro hparts
          obtain ⟨l, hl, hprefix⟩ := hparts
          rcases List.mem_cons.mp hl with rfl | hl
          · exact absurd hprefix hhit
          · exact hfits ⟨l, hl, hprefix⟩
        · cases h

/-- The bytes of the old content that a shorter new content leaves behind it. -/
def leftover (maxLine : Nat) (content name newValue : Bytes) : Bytes :=
  content.drop (((strings maxLine content).map fun line =>
    if name <+: line then name.length + newValue.length + 2 else line.length).sum)

theorem length_rewriteLine (name newValue line : Bytes) :
    (rewriteLine name newValue line).length =
      if name <+: line then name.length + newValue.length + 2 else line.length := by
  unfold rewriteLine
  split
  · simp only [replacement, List.length_append, List.length_singleton]
    omega
  · rfl

theorem length_flatten_rewriteLine (name newValue : Bytes) (lines : List Bytes) :
    (lines.map (rewriteLine name newValue)).flatten.length =
      (lines.map fun line =>
        if name <+: line then name.length + newValue.length + 2 else line.length).sum := by
  rw [List.length_flatten, List.map_map]
  exact congrArg List.sum (List.map_congr_left fun line _ => length_rewriteLine name newValue line)

/-- What `set_value` leaves in the file: the rewritten strings and, behind them,
the leftover. -/
theorem setValue_eq {maxLine : Nat} {content name newValue after : Bytes}
    (hset : setValue maxLine content name newValue = some after) :
    after = ((strings maxLine content).map (rewriteLine name newValue)).flatten ++
        leftover maxLine content name newValue ∧
      ((∃ line ∈ strings maxLine content, name <+: line) →
        (replacement name newValue).length < maxLine) := by
  obtain ⟨written, hloop, hafter⟩ := Option.map_eq_some_iff.mp hset
  obtain ⟨hwritten, hfits⟩ := rewriteLoop_eq hloop
  have hrewritten :
      written = ((strings maxLine content).map (rewriteLine name newValue)).flatten := by
    rw [hwritten, List.nil_append, strings, List.map_map]
    rfl
  constructor
  · rw [← hafter, leftover, ← length_flatten_rewriteLine, ← hrewritten]
  · intro hparts
    obtain ⟨line, hline, hprefix⟩ := hparts
    obtain ⟨read, hread, rfl⟩ := List.mem_map.mp hline
    exact hfits ⟨read, hread, hprefix⟩

/-! ## The strings that are written as lines -/

/-- The string is kept and has no newline, so that what is written behind it
joins it. -/
def Joined (name string : Bytes) : Prop := ¬ name <+: string ∧ newline ∉ string

instance (name string : Bytes) : Decidable (Joined name string) :=
  inferInstanceAs (Decidable (_ ∧ _))

/-- The strings in front of the first one that is joined. -/
def front (maxLine : Nat) (content name : Bytes) : List Bytes :=
  (strings maxLine content).takeWhile fun string => ¬Joined name string

/-- The strings from the first one on that is joined. -/
def back (maxLine : Nat) (content name : Bytes) : List Bytes :=
  (strings maxLine content).dropWhile fun string => ¬Joined name string

/-- What the file has behind the lines of the front: the rest of the strings,
rewritten, and the leftover. -/
def backText (maxLine : Nat) (content name newValue : Bytes) : Bytes :=
  ((back maxLine content name).map (rewriteLine name newValue)).flatten ++
    leftover maxLine content name newValue

theorem front_append_back (maxLine : Nat) (content name : Bytes) :
    front maxLine content name ++ back maxLine content name = strings maxLine content :=
  List.takeWhile_append_dropWhile

/-- What can be said of a string by itself: it is a C string, fits the buffer and
has a newline at its end only. -/
structure ReadString (maxLine : Nat) (string : Bytes) : Prop where
  no_nul : 0 ∉ string
  oneLine : OneLine string
  fits : string.length ≤ maxLine - 1

theorem readString_of_mem {maxLine : Nat} {content string : Bytes} (hroom : 2 ≤ maxLine)
    (h : string ∈ strings maxLine content) : ReadString maxLine string := by
  obtain ⟨read, hread, rfl⟩ := List.mem_map.mp h
  have hprefix : cstr read <+: read := List.takeWhile_prefix _
  exact ⟨zero_not_mem_cstr read, (oneLine_of_mem_fgetsLines hroom hread).of_isPrefix hprefix,
    hprefix.length_le.trans (length_le_of_mem_fgetsLines hroom hread)⟩

/-! ## Reading the file afterwards -/

section Reading

variable {maxLine : Nat} {name newValue key : Bytes}

theorem firstDefinition_append (key : Bytes) (front back : List Bytes) :
    firstDefinition key (front ++ back) =
      (firstDefinition key front).or (firstDefinition key back) :=
  List.findSome?_append

/-- Terminated C strings that fit are read one by one, whatever follows them. -/
theorem strings_terminated (behind : Bytes) (front : List Bytes)
    (hline : ∀ line ∈ front, Terminated line ∧ ReadString maxLine line) :
    strings maxLine (front.flatten ++ behind) = front ++ strings maxLine behind := by
  have hcstr : ∀ line ∈ front, cstr line = id line :=
    fun line h => cstr_eq_self (hline line h).2.no_nul
  rw [strings, fgetsLines_terminated behind front (fun line h => (hline line h).1)
    (fun line h => (hline line h).2.fits), List.map_append, List.map_congr_left hcstr,
    List.map_id, strings]

/-- The line that `set_value` writes is such a string. -/
theorem readString_replacement (hname : Clean name) (hvalue : Clean newValue)
    (hfits : (replacement name newValue).length < maxLine) :
    ReadString maxLine (replacement name newValue) := by
  obtain ⟨body, hbody, heq⟩ := replacement_terminated hname hvalue
  refine ⟨?_, ?_, by omega⟩
  · simp only [replacement, List.mem_append, List.mem_singleton, not_or]
    exact ⟨⟨⟨hname.no_nul, by decide⟩, hvalue.no_nul⟩, by decide⟩
  · rw [heq, OneLine, List.dropLast_concat]
    exact hbody

/-- A string of the front is written as a line of its own. -/
theorem rewriteLine_of_mem_front {content string : Bytes} (hroom : 2 ≤ maxLine)
    (hname : Clean name) (hvalue : Clean newValue)
    (hfits : (∃ line ∈ strings maxLine content, name <+: line) →
      (replacement name newValue).length < maxLine)
    (h : string ∈ front maxLine content name) :
    Terminated (rewriteLine name newValue string) ∧
      ReadString maxLine (rewriteLine name newValue string) := by
  have hmem : string ∈ strings maxLine content := (List.takeWhile_prefix _).subset h
  by_cases hhit : name <+: string
  · rw [rewriteLine, if_pos hhit]
    exact ⟨replacement_terminated hname hvalue,
      readString_replacement hname hvalue (hfits ⟨string, hmem, hhit⟩)⟩
  · have hnot : ¬Joined name string := by simpa using List.mem_takeWhile_imp h
    have hnewline : newline ∈ string := by
      by_contra hnone
      exact hnot ⟨hhit, hnone⟩
    have hread := readString_of_mem hroom hmem
    rw [rewriteLine, if_neg hhit]
    exact ⟨hread.oneLine.terminated hnewline, hread⟩

/-- **Reading after `set_value`** is reading the strings of the front, rewritten,
and then the text behind them. -/
theorem getValue_setValue {content after : Bytes} (hroom : 2 ≤ maxLine) (hname : Clean name)
    (hvalue : Clean newValue) (hset : setValue maxLine content name newValue = some after)
    (key : Bytes) :
    getValue maxLine after key =
      (firstDefinition key ((front maxLine content name).map (rewriteLine name newValue))).or
        (firstDefinition key (strings maxLine (backText maxLine content name newValue))) := by
  obtain ⟨hafter, hfits⟩ := setValue_eq hset
  have hlines : ∀ line ∈ (front maxLine content name).map (rewriteLine name newValue),
      Terminated line ∧ ReadString maxLine line := by
    intro line hline
    obtain ⟨string, hstring, rfl⟩ := List.mem_map.mp hline
    exact rewriteLine_of_mem_front hroom hname hvalue hfits hstring
  rw [getValue_eq, hafter, ← front_append_back maxLine content name, List.map_append,
    List.flatten_append, List.append_assoc, ← backText, strings_terminated _ _ hlines,
    firstDefinition_append]

/-- The replaced strings define only `name`. -/
theorem firstDefinition_rewriteLine_other (hname : Clean name) (hequal : equalSign ∉ name)
    (hvalue : Clean newValue) (hkey : key ≠ name) (strings : List Bytes) :
    firstDefinition key (strings.map (rewriteLine name newValue)) =
      firstDefinition key (strings.filter fun string => ¬name <+: string) := by
  induction strings with
  | nil => rfl
  | cons string rest ih =>
      rw [List.map_cons, firstDefinition_cons, ih]
      by_cases hhit : name <+: string
      · simp [rewriteLine, hhit, definition_replacement hname hequal hvalue hkey]
      · simp [rewriteLine, hhit, firstDefinition_cons]

end Reading

/-- The condition under which `key` keeps its definition.  Two things endanger it:
that its first definition stands in the front and begins with `name`, and that it
has none in the front, where the text behind may read otherwise than the strings
it was made of. -/
structure Undisturbed (maxLine : Nat) (content name newValue key : Bytes) : Prop where
  /-- Behind a first definition that begins with `name`, the other strings of the
  front that do not, and then the text behind, define `key` first with the same
  value. -/
  found : ∀ before string after value,
    front maxLine content name = before ++ string :: after →
    (∀ s ∈ before, definition key s = none) → definition key string = some value →
    name <+: string →
    (firstDefinition key (after.filter fun s => ¬name <+: s)).or
      (firstDefinition key (strings maxLine (backText maxLine content name newValue))) =
        some value
  /-- Where the front does not define `key`, the text behind defines it as the
  strings from there on did. -/
  absent : (∀ string ∈ front maxLine content name, definition key string = none) →
    firstDefinition key (strings maxLine (backText maxLine content name newValue)) =
      firstDefinition key (back maxLine content name)

/-- **The frame law, exactly.**  Within the sizes of its buffers, `set_value`
leaves what `get_value` returns for another key as it was if and only if that
key is undisturbed. -/
theorem frame_law_iff {maxLine : Nat} {content name newValue key after : Bytes}
    (hroom : 2 ≤ maxLine) (hname : Clean name) (hequal : equalSign ∉ name)
    (hvalue : Clean newValue) (hkey : key ≠ name)
    (hset : setValue maxLine content name newValue = some after) :
    getValue maxLine after key = getValue maxLine content key ↔
      Undisturbed maxLine content name newValue key := by
  rw [getValue_setValue hroom hname hvalue hset,
    firstDefinition_rewriteLine_other hname hequal hvalue hkey, getValue_eq,
    ← front_append_back maxLine content name, firstDefinition_append]
  have hskip : ∀ before : List Bytes, (∀ s ∈ before, definition key s = none) →
      firstDefinition key (before.filter fun s => ¬name <+: s) = none := by
    intro before hnone
    apply List.findSome?_eq_none_iff.mpr
    exact fun s hs => hnone s (List.mem_filter.mp hs).1
  constructor
  · intro hlaw
    constructor
    · intro before string after value hfront hnone hdef hhit
      have hbefore : firstDefinition key (front maxLine content name) = some value :=
        List.findSome?_eq_some_iff.mpr ⟨before, string, after, hfront, hdef, hnone⟩
      rw [hbefore, Option.some_or, hfront, List.filter_append, firstDefinition_append,
        hskip before hnone, Option.none_or] at hlaw
      simpa [hhit] using hlaw
    · intro hnone
      have hbefore : firstDefinition key (front maxLine content name) = none :=
        List.findSome?_eq_none_iff.mpr hnone
      rwa [hskip _ hnone, hbefore, Option.none_or, Option.none_or] at hlaw
  · intro hundisturbed
    cases hbefore : firstDefinition key (front maxLine content name) with
    | none =>
        have hnone := List.findSome?_eq_none_iff.mp hbefore
        rw [hskip _ hnone, Option.none_or, Option.none_or]
        exact hundisturbed.absent hnone
    | some value =>
        obtain ⟨before, string, after, hfront, hdef, hnone⟩ :=
          List.findSome?_eq_some_iff.mp hbefore
        rw [Option.some_or, hfront, List.filter_append, firstDefinition_append,
          hskip before hnone, Option.none_or]
        by_cases hhit : name <+: string
        · simpa [hhit] using hundisturbed.found before string after value hfront hnone hdef hhit
        · simp [hhit, firstDefinition_cons, hdef]

/-- Setting one key of a file of two keeps the other: all of the law's premises
hold there, and so does the law. -/
theorem frame_law_two_keys :
    let content := text "user=a\nmode=b\n"
    let after := text "user=c\nmode=b\n"
    (2 ≤ 200 ∧ Clean (text "user") ∧ equalSign ∉ text "user" ∧ Clean (text "c") ∧
      text "mode" ≠ text "user" ∧
      setValue 200 content (text "user") (text "c") = some after) ∧
    (getValue 200 after (text "mode") = getValue 200 content (text "mode") ↔
      Undisturbed 200 content (text "user") (text "c") (text "mode")) ∧
    getValue 200 after (text "mode") = getValue 200 content (text "mode") := by
  intro content after
  have hset : setValue 200 content (text "user") (text "c") = some after := by decide
  exact ⟨⟨by decide, by decide, by decide, by decide, by decide, hset⟩,
    frame_law_iff (by decide) (by decide) (by decide) (by decide) (by decide) hset, by decide⟩

/-- Setting `user` replaces the line of `username`, whose key begins with it. -/
theorem frame_law_fails_on_longer_key :
    let content := text "username=a\nuserpw=b\n"
    (0 ∉ content ∧ (∀ line ∈ lines content, line.length ≤ 200 - 1) ∧ Clean (text "user") ∧
      equalSign ∉ text "user" ∧ Clean (text "c") ∧ text "username" ≠ text "user") ∧
    ∃ after, setValue 200 content (text "user") (text "c") = some after ∧
      getValue 200 after (text "username") ≠ getValue 200 content (text "username") := by
  intro content
  refine ⟨by decide, text "user=c\nuser=c\nrpw=b\n", by decide, by decide⟩

end Settings
