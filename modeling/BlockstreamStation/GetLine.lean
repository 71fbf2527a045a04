import BlockstreamStation.Buffers
import BlockstreamStation.CText

/-!
# The line that `get_line` leaves

`get_line` of `server/cgi-bin/general.h` looks for the lines of a file that begin
with a name, and leaves the last of them in the global array `file_ex_data`.  The
array is cleared at its first byte only, and a line is copied into it without a
terminator, so what a call leaves depends on all the calls before it.

The bytes behind the first one keep a record of these: a byte is zero exactly while
nothing longer than its index was ever copied (`Record`).  From it comes the exact
condition, for each call of a run, under which its line can be read back
(`getLines_leaves_iff`).
-/

namespace CgiBin

open CText Buffers

/-! ## The function -/

/-- `file_ex_data` when the program starts. -/
def fileExData : Bytes := List.replicate 80 0

/-- The loop over the strings that `fgets` returns.  `none` is a byte written
behind the array. -/
def getLineLoop (name : Bytes) : Bytes → List Bytes → Option Bytes
  | data, [] => some data
  | data, line :: rest => do
      let data ← if name <+: cstr line then writeAll data 0 (cstr line) else some data
      getLineLoop name data rest

/-- `get_line`, from the array before to the array after; `file` is `none` when
`fopen` fails.  The parameter `line_value` is not used. -/
def getLine (maxLine : Nat) (file : Option Bytes) (name data : Bytes) : Option Bytes :=
  match file with
  | none => some data
  | some content => do
      let data ← write data 0 0
      getLineLoop name data (fgetsLines maxLine content)

/-- A call whose file, if it opens, has lines shorter than the array and than the
buffer of `fgets`.  The name is a C string; with a buffer of one byte `fgets`
would return without reading. -/
structure GetLineCall where
  maxLine : Nat
  file : Option Bytes
  name : Bytes
  room : 2 ≤ maxLine
  name_string : 0 ∉ name
  lines_short : ∀ content, file = some content →
    ∀ line ∈ lines content, line.length < 80 ∧ line.length < maxLine

/-- One call after the other on the same array. -/
def getLines : Bytes → List GetLineCall → Option Bytes
  | data, [] => some data
  | data, call :: rest => do
      let data ← getLine call.maxLine call.file call.name data
      getLines data rest

/-! ## The lines of a name -/

/-- The lines of a text that begin with a name. -/
def beginning (name content : Bytes) : List Bytes :=
  (lines content).filter fun line => name <+: line

/-- The last line that begins with a name, or nothing. -/
def lastBeginning (name content : Bytes) : Bytes := (beginning name content).getLast?.getD []

/-- What a call copies into the array, in its order. -/
def GetLineCall.copied (call : GetLineCall) : List Bytes :=
  match call.file with
  | none => []
  | some content => (beginning call.name content).map cstr

/-- A name is looked for in front of the NUL of a line. -/
theorem prefix_cstr_iff {name line : Bytes} (h : 0 ∉ name) :
    name <+: cstr line ↔ name <+: line := by
  constructor
  · exact fun hcstr => hcstr.trans (List.takeWhile_prefix _)
  · intro hline
    obtain ⟨rest, rfl⟩ := hline
    rw [cstr_append h]
    exact List.prefix_append _ _

/-- The loop is the copies of the lines that begin with the name. -/
theorem getLineLoop_eq {name : Bytes} (h : 0 ∉ name) (strings : List Bytes) :
    ∀ data, getLineLoop name data strings =
      ((strings.filter fun line => name <+: line).map cstr).foldlM (writeAll · 0) data := by
  induction strings with
  | nil => intro data; rfl
  | cons line rest ih =>
      intro data
      rw [getLineLoop]
      by_cases hbegins : name <+: line
      · rw [if_pos ((prefix_cstr_iff h).mpr hbegins), List.filter_cons_of_pos (by simpa),
          List.map_cons, List.foldlM_cons]
        simp only [ih]
      · rw [if_neg (fun hcstr => hbegins ((prefix_cstr_iff h).mp hcstr)),
          List.filter_cons_of_neg (by simpa)]
        exact ih data

/-! ## What the array records -/

/-- The array after copies into it: behind its first byte, a byte is zero exactly
if no copy was longer than its index. -/
structure Record (data : Bytes) (copied : List Bytes) : Prop where
  size : data.length = 80
  zero_iff : ∀ k, 1 ≤ k → k < 80 → (data[k]? = some 0 ↔ ∀ s ∈ copied, s.length ≤ k)

/-- At the start nothing was copied. -/
theorem record_fileExData : Record fileExData [] where
  size := List.length_replicate
  zero_iff k _ hk := by
    rw [fileExData, List.getElem?_replicate, if_pos hk]
    simp

section Record

variable {data : Bytes} {copied : List Bytes}

/-- Clearing the first byte leaves the record. -/
theorem Record.clear (h : Record data copied) : Record (data.set 0 0) copied where
  size := by rw [List.length_set, h.size]
  zero_iff k hpos hk := by rw [List.getElem?_set_ne (by omega), h.zero_iff k hpos hk]

/-- A copy is added to the record: its bytes are not zero, and it leaves those
behind it. -/
theorem Record.copy (h : Record data copied) {s : Bytes} (hs : 0 ∉ s) (hlength : s.length < 80) :
    writeAll data 0 s = some (s ++ data.drop s.length) ∧
      Record (s ++ data.drop s.length) (copied ++ [s]) := by
  have hsize := h.size
  refine ⟨writeAll_zero (by omega), ⟨?_, fun k hpos hk => ?_⟩⟩
  · rw [List.length_append, List.length_drop]
    omega
  · have hall : (∀ t ∈ copied ++ [s], t.length ≤ k) ↔
        (∀ t ∈ copied, t.length ≤ k) ∧ s.length ≤ k := by
      simp only [List.forall_mem_append, List.forall_mem_singleton]
    rw [hall]
    by_cases hinside : k < s.length
    · have hbyte : s[k] ≠ 0 := fun hzero => hs (hzero ▸ List.getElem_mem hinside)
      rw [List.getElem?_append_left hinside, List.getElem?_eq_getElem hinside, Option.some.injEq]
      exact iff_of_false hbyte (by omega)
    · have hbehind : s.length + (k - s.length) = k := by omega
      rw [List.getElem?_append_right (by omega), List.getElem?_drop, hbehind,
        h.zero_iff k hpos hk, and_iff_left (by omega)]

/-- Strings that fit are copied one by one. -/
theorem Record.copies (strings : List Bytes) :
    ∀ {data copied}, Record data copied → (∀ s ∈ strings, 0 ∉ s ∧ s.length < 80) →
      ∃ after, strings.foldlM (writeAll · 0) data = some after ∧
        Record after (copied ++ strings) := by
  induction strings with
  | nil => intro data copied h _; exact ⟨data, rfl, by simpa using h⟩
  | cons s rest ih =>
      intro data copied h hall
      obtain ⟨hs, hlength⟩ := hall s List.mem_cons_self
      obtain ⟨hwrite, hrecord⟩ := h.copy hs hlength
      obtain ⟨after, hafter, hrest⟩ := ih hrecord fun t ht => hall t (List.mem_cons_of_mem _ ht)
      rw [List.append_assoc, List.singleton_append] at hrest
      exact ⟨after, by rw [List.foldlM_cons, hwrite]; exact hafter, hrest⟩

end Record

/-! ## One call -/

namespace GetLineCall

variable {call : GetLineCall} {content data : Bytes} {earlier : List Bytes}

/-- A call copies the lines that begin with its name. -/
theorem copied_of_file (hfile : call.file = some content) :
    call.copied = (beginning call.name content).map cstr := by
  rw [copied, hfile]

/-- What a call does to the array: it clears the first byte, and copies. -/
theorem getLine_eq (hfile : call.file = some content) (hdata : data.length = 80) :
    getLine call.maxLine call.file call.name data =
      call.copied.foldlM (writeAll · 0) (data.set 0 0) := by
  have hfits : ∀ line ∈ lines content, line.length ≤ call.maxLine - 1 := by
    intro line hline
    have hshort := (call.lines_short content hfile line hline).2
    omega
  rw [copied_of_file hfile, hfile, getLine, write_of_lt (by omega), fgetsLines_eq_lines hfits]
  exact getLineLoop_eq call.name_string _ _

/-- They fit the buffer. -/
theorem copied_short : ∀ s ∈ call.copied, 0 ∉ s ∧ s.length < 80 := by
  intro s hs
  rw [copied] at hs
  split at hs
  · simp at hs
  · rename_i content hfile
    obtain ⟨line, hline, rfl⟩ := List.mem_map.mp hs
    have hshort := (call.lines_short content hfile line (List.mem_filter.mp hline).1).1
    refine ⟨zero_not_mem_cstr line, ?_⟩
    exact Nat.lt_of_le_of_lt (List.takeWhile_prefix _).length_le hshort

/-- Nothing longer was copied before the last line that begins with the name, by
the calls before or by this one, and that line has no NUL. -/
def Covers (call : GetLineCall) (earlier : List Bytes) : Prop :=
  ∀ content front last, call.file = some content →
    beginning call.name content = front ++ [last] →
      0 ∉ last ∧ ∀ s ∈ earlier ++ front.map cstr, s.length ≤ last.length

/-- A call that copies nothing covers what was there. -/
theorem covers_of_none (hfile : call.file = some content)
    (hnone : beginning call.name content = []) : call.Covers earlier := by
  intro content' front last hfile' hlast
  obtain rfl := Option.some.inj (hfile'.symm.trans hfile)
  simp [hnone] at hlast

/-- The last line it copies has to be the longest so far. -/
theorem covers_iff {front : List Bytes} {last : Bytes} (hfile : call.file = some content)
    (hlast : beginning call.name content = front ++ [last]) :
    call.Covers earlier ↔
      0 ∉ last ∧ ∀ s ∈ earlier ++ front.map cstr, s.length ≤ last.length := by
  refine ⟨fun h => h content front last hfile hlast, fun h content' front' last' hfile' => ?_⟩
  intro hsplit
  obtain rfl := Option.some.inj (hfile'.symm.trans hfile)
  obtain ⟨rfl, hsame⟩ := List.append_inj' (hlast.symm.trans hsplit) rfl
  obtain rfl := List.singleton_inj.mp hsame
  exact h

/-- Without a line that begins with the name, the cleared byte ends the string. -/
theorem getLine_none (hfile : call.file = some content) (hrecord : Record data earlier)
    (hnone : beginning call.name content = []) :
    ∃ after, getLine call.maxLine call.file call.name data = some after ∧ cstr after = [] := by
  have hpos : 0 < data.length := by
    rw [hrecord.size]
    decide
  have hstring : cstr ((data.set 0 0).drop 0) = [] :=
    (cstr_drop_eq_nil_iff (by rwa [List.length_set])).mpr (List.getElem?_set_self hpos)
  have hcopied : call.copied = [] := by rw [copied_of_file hfile, hnone]; rfl
  exact ⟨data.set 0 0, by rw [getLine_eq hfile hrecord.size, hcopied]; rfl, hstring⟩

/-- With one, the last of them stands in front of what the copies before it, and
the calls before this one, left behind. -/
theorem getLine_last {front : List Bytes} {last : Bytes} (hfile : call.file = some content)
    (hrecord : Record data earlier) (hlast : beginning call.name content = front ++ [last]) :
    ∃ filled, Record filled (earlier ++ front.map cstr) ∧
      getLine call.maxLine call.file call.name data =
        some (cstr last ++ filled.drop (cstr last).length) := by
  have hcopied : call.copied = front.map cstr ++ [cstr last] := by
    rw [copied_of_file hfile, hlast, List.map_append, List.map_singleton]
  have hshort := call.copied_short
  rw [hcopied] at hshort
  obtain ⟨filled, hfilled, hrecorded⟩ := Record.copies (front.map cstr) hrecord.clear
    fun s hs => hshort s (List.mem_append_left _ hs)
  obtain ⟨hzero, hlength⟩ := hshort (cstr last) (by simp)
  refine ⟨filled, hrecorded, ?_⟩
  rw [getLine_eq hfile hrecord.size, hcopied, List.foldlM_append, hfilled]
  simpa using (hrecorded.copy hzero hlength).1

/-- What a call that opens its file leaves, on an array with a record. -/
theorem getLine_leaves_iff (hfile : call.file = some content) (hrecord : Record data earlier) :
    ∃ after, getLine call.maxLine call.file call.name data = some after ∧
      (cstr after = lastBeginning call.name content ↔ call.Covers earlier) := by
  rcases List.eq_nil_or_concat (beginning call.name content) with hnone | ⟨front, last, hlast⟩
  · obtain ⟨after, hafter, hstring⟩ := getLine_none hfile hrecord hnone
    refine ⟨after, hafter, iff_of_true ?_ (covers_of_none hfile hnone)⟩
    rw [hstring, lastBeginning, hnone]
    rfl
  · rw [List.concat_eq_append] at hlast
    obtain ⟨filled, hrecorded, hafter⟩ := getLine_last hfile hrecord hlast
    have hmem : last ∈ lines content := by
      have hbegins : last ∈ beginning call.name content := by simp [hlast]
      exact (List.mem_filter.mp hbegins).1
    have hshort := (call.lines_short content hfile last hmem).1
    have hpos : 1 ≤ last.length := List.length_pos_iff.mpr (ne_nil_of_mem_lines hmem)
    have hline : lastBeginning call.name content = last := by simp [lastBeginning, hlast]
    refine ⟨_, hafter, ?_⟩
    rw [hline, covers_iff hfile hlast]
    by_cases hnul : 0 ∈ last
    · refine iff_of_false (fun heq => ?_) fun h => h.1 hnul
      rw [← heq] at hnul
      exact zero_not_mem_cstr _ hnul
    · rw [cstr_eq_self hnul, cstr_append hnul, List.append_right_eq_self,
        cstr_drop_eq_nil_iff (by rw [hrecorded.size]; exact hshort),
        hrecorded.zero_iff last.length hpos hshort, and_iff_right hnul]

/-- A call adds its copies to the record. -/
theorem getLine_record (call : GetLineCall) (hrecord : Record data earlier) :
    ∃ after, getLine call.maxLine call.file call.name data = some after ∧
      Record after (earlier ++ call.copied) := by
  cases hfile : call.file with
  | none =>
      have hcopied : call.copied = [] := by rw [copied, hfile]
      refine ⟨data, rfl, ?_⟩
      rwa [hcopied, List.append_nil]
  | some content =>
      rw [← hfile, getLine_eq hfile hrecord.size]
      exact Record.copies call.copied hrecord.clear call.copied_short

end GetLineCall

/-! ## Runs -/

/-- What the calls of a run have copied into the array. -/
def copiedBy (calls : List GetLineCall) : List Bytes := calls.flatMap GetLineCall.copied

/-- Every run of calls keeps the record. -/
theorem getLines_record (calls : List GetLineCall) :
    ∀ {data earlier}, Record data earlier →
      ∃ after, getLines data calls = some after ∧ Record after (earlier ++ copiedBy calls) := by
  induction calls with
  | nil => intro data earlier h; exact ⟨data, rfl, by simpa [copiedBy] using h⟩
  | cons call rest ih =>
      intro data earlier h
      obtain ⟨middle, hmiddle, hrecord⟩ := call.getLine_record h
      obtain ⟨after, hafter, hrest⟩ := ih hrecord
      refine ⟨after, by rw [getLines, hmiddle]; exact hafter, ?_⟩
      rwa [copiedBy, List.flatMap_cons, ← List.append_assoc]

/-- The last call of a run. -/
theorem getLines_append (calls : List GetLineCall) (call : GetLineCall) :
    ∀ data, getLines data (calls ++ [call]) =
      (getLines data calls).bind (getLine call.maxLine call.file call.name) := by
  induction calls with
  | nil => intro data; simp [getLines]
  | cons first rest ih =>
      intro data
      simp only [List.cons_append, getLines, Option.bind_eq_bind, Option.bind_assoc, ih]

/-- A call of a run that opens its file, from the array the program starts with. -/
theorem getLines_leaves_iff {before : List GetLineCall} {call : GetLineCall} {content : Bytes}
    (hfile : call.file = some content) :
    ∃ data, getLines fileExData (before ++ [call]) = some data ∧
      (cstr data = lastBeginning call.name content ↔ call.Covers (copiedBy before)) := by
  obtain ⟨middle, hmiddle, hrecord⟩ := getLines_record before record_fileExData
  rw [List.nil_append] at hrecord
  obtain ⟨data, hdata, hleaves⟩ := call.getLine_leaves_iff hfile hrecord
  refine ⟨data, ?_, hleaves⟩
  rw [getLines_append, hmiddle, Option.bind_some, hdata]

/-- After each call of a run that opens its file, the array holds the last line of
the file that begins with the name. -/
def LeavesLines (calls : List GetLineCall) : Prop :=
  ∀ before call after content, calls = before ++ call :: after → call.file = some content →
    ∃ data, getLines fileExData (before ++ [call]) = some data ∧
      cstr data = lastBeginning call.name content

/-- **The line, exactly.**  Along any run of calls, each leaves its line if and only
if the last line that begins with the name of each has no NUL and is at least as
long as all that was copied into the array before it. -/
theorem leaves_lines_iff (calls : List GetLineCall) :
    LeavesLines calls ↔
      ∀ before call after, calls = before ++ call :: after →
        call.Covers (copiedBy before) := by
  constructor
  · intro h before call after hsplit
    cases hfile : call.file with
    | none =>
        intro content front last hsome
        rw [hfile] at hsome
        cases hsome
    | some content =>
        obtain ⟨data, hdata, hleaves⟩ := getLines_leaves_iff hfile
        obtain ⟨data', hdata', hline⟩ := h before call after content hsplit hfile
        obtain rfl := Option.some.inj (hdata'.symm.trans hdata)
        exact hleaves.mp hline
  · intro h before call after content hsplit hfile
    obtain ⟨data, hdata, hleaves⟩ := getLines_leaves_iff hfile
    exact ⟨data, hdata, hleaves.mpr (h before call after hsplit)⟩

/-- A file with one line. -/
def askMode (line : String) (hshort : ∀ l ∈ lines (text line), l.length < 80 ∧ l.length < 100) :
    GetLineCall where
  maxLine := 100
  file := some (text line)
  name := text "mode"
  room := by decide
  name_string := by decide
  lines_short content hfile := by
    obtain rfl := Option.some.inj hfile
    exact hshort

/-- The mode `ap` is read after the mode `repeater`. -/
theorem longer_line_shows_through :
    getLines fileExData [askMode "mode=repeater\n" (by decide), askMode "mode=ap\n" (by decide)] =
        some ((text "mode=ap\neater\n").rightpad 80 0) ∧
      ¬ LeavesLines [askMode "mode=repeater\n" (by decide), askMode "mode=ap\n" (by decide)] := by
  have hdata : getLines fileExData
      [askMode "mode=repeater\n" (by decide), askMode "mode=ap\n" (by decide)] =
        some ((text "mode=ap\neater\n").rightpad 80 0) := by decide +kernel
  refine ⟨hdata, fun h => ?_⟩
  obtain ⟨data, hrun, hline⟩ := h [askMode "mode=repeater\n" (by decide)]
    (askMode "mode=ap\n" (by decide)) [] (text "mode=ap\n") rfl rfl
  obtain rfl := Option.some.inj (hrun.symm.trans hdata)
  revert hline
  decide +kernel

end CgiBin
