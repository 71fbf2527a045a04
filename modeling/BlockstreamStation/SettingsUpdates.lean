import BlockstreamStation.LabelledRuns
import BlockstreamStation.SettingsFrameLaw

/-!
# What `set_value` does to its own key and to the file

Reading back the key that was set, `get_value` finds the new value unless the
definition it reads is one that `set_value` does not see: `get_value` skips
white space in front of a key and `set_value` compares from the first byte of
the line.  Behind a string that is joined the text reads otherwise than the lines
it was made of.  `put_get_iff` is the exact condition.

The bytes of the file are a matter of lengths.  The second `fopen` of
`set_value` opens for update, so the file never gets shorter, and after a run of
calls it holds the rewritten lines and nothing else exactly when no call of the
run had fewer bytes to write than the file had (`updates_exact_iff`).
-/

namespace Settings

open CText LabelledRuns

/-! ## Names that can be read -/

/-- A key that a string read from a file defines is a name as `set_value` expects
it. -/
theorem clean_of_defines {maxLine : Nat} {name string value : Bytes}
    (hstring : ReadString maxLine string) (hdefines : Defines name string value) :
    Clean name ∧ equalSign ∉ name := by
  obtain ⟨key, rest, hsplit, hequal, hhash, hname, -⟩ := hdefines.parts
  subst hname
  have hkey : ∀ b ∈ trim key, b ∈ trim string := by
    intro b hb
    rw [hsplit]
    exact List.mem_append_left _ (mem_of_mem_trim hb)
  have hnewline : newline ∉ trim string := by
    by_cases hend : newline ∈ string
    · obtain ⟨body, hbody, rfl⟩ := hstring.oneLine.terminated hend
      have htrim : trim (body ++ [newline]) = trim body :=
        congrArg (List.dropWhile isSpace) (rstrip_append_newline body)
      rw [htrim]
      exact fun h => hbody (mem_of_mem_trim h)
    · exact fun h => hend (mem_of_mem_trim h)
  refine ⟨⟨?_, ?_, ?_, trimmed_trim key⟩, ?_⟩
  · exact fun h => hstring.no_nul (mem_of_mem_trim (hkey 0 h))
  · exact fun h => hnewline (hkey newline h)
  · exact fun h => hhash (mem_of_mem_trim h)
  · exact fun h => hequal (mem_of_mem_trim h)

/-- So is every name that `get_value` finds. -/
theorem clean_of_getValue {maxLine : Nat} {content name value : Bytes} (hroom : 2 ≤ maxLine)
    (hfound : getValue maxLine content name = some value) : Clean name ∧ equalSign ∉ name := by
  rw [getValue_eq] at hfound
  obtain ⟨string, hstring, hdef⟩ := List.exists_of_findSome?_eq_some hfound
  exact clean_of_defines (readString_of_mem hroom hstring) (definition_eq_some_iff.mp hdef)

/-! ## Reading the rewritten file -/

section OwnKey

variable {name newValue : Bytes}

/-- Among the strings up to the first definition of `name`, one begins with
`name`. -/
def WriterFinds (name : Bytes) (strings : List Bytes) : Prop :=
  ∃ before string after, strings = before ++ string :: after ∧
    (∀ s ∈ before, definition name s = none) ∧ name <+: string

theorem writerFinds_cons_iff {string : Bytes} {rest : List Bytes} :
    WriterFinds name (string :: rest) ↔
      name <+: string ∨ definition name string = none ∧ WriterFinds name rest := by
  constructor
  · intro h
    obtain ⟨before, hit, after, hsplit, hnone, hhit⟩ := h
    cases before with
    | nil =>
        obtain ⟨rfl, -⟩ := List.cons.inj hsplit
        exact .inl hhit
    | cons first before =>
        obtain ⟨rfl, hrest⟩ := List.cons.inj hsplit
        exact .inr ⟨hnone _ List.mem_cons_self, before, hit, after, hrest,
          fun s hs => hnone s (List.mem_cons_of_mem _ hs), hhit⟩
  · intro h
    rcases h with hhit | ⟨hnone, before, hit, after, rfl, hbefore, hhit⟩
    · exact ⟨[], string, rest, rfl, by simp, hhit⟩
    · exact ⟨string :: before, hit, after, rfl, List.forall_mem_cons.mpr ⟨hnone, hbefore⟩, hhit⟩

theorem definition_replacement_self (hname : Clean name) (hequal : equalSign ∉ name)
    (hvalue : Clean newValue) : definition name (replacement name newValue) = some newValue := by
  rw [definition, setting_replacement hname hequal hvalue]
  simp

/-- Where the writer finds a string in time, the rewritten strings define `name`
as the new value. -/
theorem firstDefinition_of_writerFinds (hname : Clean name) (hequal : equalSign ∉ name)
    (hvalue : Clean newValue) {strings : List Bytes} (hfinds : WriterFinds name strings) :
    firstDefinition name (strings.map (rewriteLine name newValue)) = some newValue := by
  have hreplaced := definition_replacement_self hname hequal hvalue
  induction strings with
  | nil =>
      obtain ⟨before, string, after, hsplit, -⟩ := hfinds
      simp at hsplit
  | cons string rest ih =>
      rw [List.map_cons, firstDefinition_cons]
      by_cases hhit : name <+: string
      · rw [rewriteLine, if_pos hhit, hreplaced, Option.some_or]
      · obtain ⟨hnone, hrest⟩ := (writerFinds_cons_iff.mp hfinds).resolve_left hhit
        rw [rewriteLine, if_neg hhit, hnone, Option.none_or, ih hrest]

/-- Where it does not, they define it as they did. -/
theorem firstDefinition_of_not_writerFinds {strings : List Bytes}
    (hfinds : ¬ WriterFinds name strings) :
    firstDefinition name (strings.map (rewriteLine name newValue)) =
      firstDefinition name strings := by
  induction strings with
  | nil => rfl
  | cons string rest ih =>
      rw [writerFinds_cons_iff, not_or] at hfinds
      rw [List.map_cons, rewriteLine, if_neg hfinds.1, firstDefinition_cons, firstDefinition_cons]
      cases hdef : definition name string with
      | some value => rw [Option.some_or, Option.some_or]
      | none => rw [ih fun hrest => hfinds.2 ⟨hdef, hrest⟩]

end OwnKey

/-- The condition under which the new value is read: in the front of the file some
string up to the first definition begins with the name, or the first definition
is the new value; or no string there begins with the name or defines it, and the
text written behind the front defines it as the new value. -/
def ReadsBack (maxLine : Nat) (content name newValue : Bytes) : Prop :=
  WriterFinds name (front maxLine content name) ∨
  firstDefinition name (front maxLine content name) = some newValue ∨
  (∀ string ∈ front maxLine content name, ¬ name <+: string ∧ definition name string = none) ∧
    firstDefinition name (strings maxLine (backText maxLine content name newValue)) =
      some newValue

/-- **The put-get law, exactly.**  Within the sizes of its buffers, `set_value`
makes `get_value` return the new value for a name that it found before if and only
if the file reads it back. -/
theorem put_get_iff {maxLine : Nat} {content name newValue old after : Bytes}
    (hroom : 2 ≤ maxLine) (hfound : getValue maxLine content name = some old)
    (hvalue : Clean newValue) (hset : setValue maxLine content name newValue = some after) :
    getValue maxLine after name = some newValue ↔ ReadsBack maxLine content name newValue := by
  obtain ⟨hname, hequal⟩ := clean_of_getValue hroom hfound
  rw [getValue_setValue hroom hname hvalue hset, ReadsBack]
  by_cases hfinds : WriterFinds name (front maxLine content name)
  · simp [firstDefinition_of_writerFinds hname hequal hvalue hfinds, hfinds]
  · rw [firstDefinition_of_not_writerFinds hfinds]
    cases hfirst : firstDefinition name (front maxLine content name) with
    | some value =>
        obtain ⟨string, hstring, hdef⟩ := List.exists_of_findSome?_eq_some hfirst
        have hdefined : ¬∀ s ∈ front maxLine content name,
            ¬ name <+: s ∧ definition name s = none := by
          intro h
          rw [(h string hstring).2] at hdef
          cases hdef
        simp [hfinds, hdefined]
    | none =>
        have hnone := List.findSome?_eq_none_iff.mp hfirst
        have hnot : ∀ s ∈ front maxLine content name,
            ¬ name <+: s ∧ definition name s = none := by
          intro s hs
          refine ⟨fun hhit => hfinds ?_, hnone s hs⟩
          obtain ⟨before, rest, hsplit⟩ := List.append_of_mem hs
          refine ⟨before, s, rest, hsplit, fun b hb => hnone b ?_, hhit⟩
          rw [hsplit]
          exact List.mem_append_left _ hb
        rw [Option.none_or, and_iff_right hnot]
        simp [hfinds]

/-- Setting a key whose line begins with it: the premises hold, and the new value
is read back. -/
theorem put_get_plain_line :
    let content := text "user=a\nmode=b\n"
    let after := text "user=c\nmode=b\n"
    (2 ≤ 200 ∧ getValue 200 content (text "user") = some (text "a") ∧ Clean (text "c") ∧
      setValue 200 content (text "user") (text "c") = some after) ∧
    (getValue 200 after (text "user") = some (text "c") ↔
      ReadsBack 200 content (text "user") (text "c")) ∧
    getValue 200 after (text "user") = some (text "c") := by
  intro content after
  have hfound : getValue 200 content (text "user") = some (text "a") := by decide
  have hset : setValue 200 content (text "user") (text "c") = some after := by decide
  exact ⟨⟨by decide, hfound, by decide, hset⟩,
    put_get_iff (by decide) hfound (by decide) hset, by decide⟩

/-- An indented key is read and not written. -/
theorem put_get_fails_on_indented_key :
    let content := text " user=a\n"
    (0 ∉ content ∧ (∀ line ∈ lines content, line.length ≤ 200 - 1) ∧
      getValue 200 content (text "user") = some (text "a") ∧ Clean (text "c")) ∧
    ∃ after, setValue 200 content (text "user") (text "c") = some after ∧
      getValue 200 after (text "user") ≠ some (text "c") := by
  intro content
  exact ⟨by decide, content, by decide, by decide⟩

/-! ## Runs of updates -/

/-- A call of `set_value` on the file.  With a buffer of one byte `fgets` would
return without reading. -/
structure SetCall where
  maxLine : Nat
  name : Bytes
  newValue : Bytes
  room : 2 ≤ maxLine

namespace SetCall

/-- The file after the call, if it stays inside its buffers. -/
def apply (content : Bytes) (call : SetCall) : Option Bytes :=
  setValue call.maxLine content call.name call.newValue

/-- The lines the call reads, as the C strings they are, with those that begin
with the name replaced. -/
def rewritten (call : SetCall) (content : Bytes) : Bytes :=
  ((fgetsLines call.maxLine content).map fun line =>
    rewriteLine call.name call.newValue (cstr line)).flatten

/-- How many bytes that makes. -/
def rewrittenSize (call : SetCall) (content : Bytes) : Nat :=
  (((fgetsLines call.maxLine content).map cstr).map fun line =>
    if call.name <+: line then call.name.length + call.newValue.length + 2
    else line.length).sum

theorem length_rewritten (call : SetCall) (content : Bytes) :
    (call.rewritten content).length = call.rewrittenSize content := by
  rw [rewrittenSize, ← length_flatten_rewriteLine, List.map_map]
  rfl

/-- What one call leaves in the file. -/
theorem apply_eq {call : SetCall} {content after : Bytes} (h : apply content call = some after) :
    after = call.rewritten content ++ content.drop (call.rewrittenSize content) := by
  have hrewritten : call.rewritten content =
      ((strings call.maxLine content).map (rewriteLine call.name call.newValue)).flatten := by
    rw [rewritten, strings, List.map_map]
    rfl
  rw [hrewritten]
  exact (setValue_eq h).1

/-- One call leaves nothing of the old content behind exactly when it writes at
least as many bytes as the file has. -/
theorem apply_exact_iff {call : SetCall} {content after : Bytes}
    (h : apply content call = some after) :
    after = call.rewritten content ↔ content.length ≤ call.rewrittenSize content := by
  rw [apply_eq h, List.append_right_eq_self, List.drop_eq_nil_iff]

end SetCall

/-- After each call of a run the file holds the rewritten lines and nothing
else. -/
def UpdatesExact (content : Bytes) (calls : List SetCall) : Prop :=
  ∀ front call back before after, calls = front ++ call :: back →
    exec SetCall.apply content front = some before →
    SetCall.apply before call = some after → after = call.rewritten before

/-- **The file after updates, exactly.**  Along any run of calls inside their
buffers, the file holds the rewritten lines and nothing else after each call if
and only if no call meets a file that is longer than what it writes. -/
theorem updates_exact_iff (content : Bytes) (calls : List SetCall) :
    UpdatesExact content calls ↔
      Guarded SetCall.apply (fun before call => before.length ≤ call.rewrittenSize before)
        content calls := by
  constructor
  · intro hexact front call back before hsplit hexec htaken
    obtain ⟨after, hafter⟩ := Option.isSome_iff_exists.mp htaken
    exact (SetCall.apply_exact_iff hafter).mp
      (hexact front call back before after hsplit hexec hafter)
  · intro hguarded front call back before after hsplit hexec hafter
    exact (SetCall.apply_exact_iff hafter).mpr
      (hguarded front call back before hsplit hexec (by rw [hafter]; rfl))

/-- A shorter value leaves the end of the old line behind. -/
theorem shorter_value_leaves_old_bytes :
    ¬ UpdatesExact (text "mode=long\n") [⟨200, text "mode", text "x", by decide⟩] := by
  intro hexact
  have h := hexact [] ⟨200, text "mode", text "x", by decide⟩ [] (text "mode=long\n")
    (text "mode=x\nng\n") rfl rfl (by decide)
  revert h
  decide

end Settings
