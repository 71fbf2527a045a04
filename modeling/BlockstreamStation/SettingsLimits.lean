import BlockstreamStation.SettingsUpdates

/-!
# The settings file at the limits of the buffers

Both functions read the file through a buffer of `MAX_LINE` bytes, and
`set_value` collects the new content in one of 1000.

* `reads_whole_lines_iff` — a line that does not fit is read in pieces, and
  `get_value` takes each of them for a line.  It finds the keys of whole lines
  only exactly when no piece inside a line has the key, unless the beginning of
  a line up to there has it too.
* `strcat_inside_iff` — `set_value` stays inside its two buffers exactly when
  the line it builds, if it builds one, and the content it collects fit.
-/

namespace Settings

open CText

/-! ## Keys of lines -/

/-- The line has the key `name`. -/
def HasKey (name line : Bytes) : Prop := ∃ value, Defines name line value

theorem hasKey_iff {name line : Bytes} : HasKey name line ↔ (definition name line).isSome := by
  rw [Option.isSome_iff_exists]
  exact exists_congr fun value => definition_eq_some_iff.symm

instance (name line : Bytes) : Decidable (HasKey name line) := decidable_of_iff' _ hasKey_iff

theorem rdropWhile_append_cons {p : UInt8 → Bool} {b : UInt8} (hb : p b = false)
    (front rest : Bytes) :
    (front ++ b :: rest).rdropWhile p = front ++ b :: rest.rdropWhile p := by
  simp only [List.rdropWhile, List.reverse_append, List.reverse_cons, List.dropWhile_append,
    List.append_assoc]
  split
  · rename_i hempty
    simp [List.isEmpty_iff.mp hempty, hb]
  · simp

/-- A line has the key that its beginning has: the `=` is there already. -/
theorem HasKey.of_isPrefix {name front line : Bytes} (hfront : front <+: line)
    (h : HasKey name front) : HasKey name line := by
  obtain ⟨value, hnonempty, hcomment, key, rest, hsplit, hequal, hhash, hname, -⟩ := h
  obtain ⟨tail, rfl⟩ := hfront
  -- white space at the end of the beginning belongs to the value of the line
  obtain ⟨spaces, hspaces⟩ := List.rdropWhile_prefix isSpace (front.dropWhile isSpace)
  rw [rdropWhile_dropWhile_isSpace, hsplit] at hspaces
  have hdrop : (front ++ tail).dropWhile isSpace =
      key ++ equalSign :: (rest ++ spaces ++ tail) := by
    rw [List.dropWhile_append, ← hspaces]
    simp
  have htrim : trim (front ++ tail) =
      key ++ equalSign :: (rest ++ spaces ++ tail).rdropWhile isSpace := by
    rw [← rdropWhile_dropWhile_isSpace, hdrop, rdropWhile_append_cons (by decide)]
  have hhead : (trim (front ++ tail)).head? = (trim front).head? := by
    rw [htrim, hsplit]
    cases key <;> rfl
  refine ⟨_, ?_, hhead ▸ hcomment, key, _, htrim, hequal, hhash, hname, rfl⟩
  rw [htrim]
  simp

/-! ## Reading long lines -/

/-- The loop of `get_value` ends at the string `found`, behind the strings
`before`. -/
structure StopsAt (maxLine : Nat) (content name : Bytes) (before : List Bytes)
    (found : Bytes) : Prop where
  read : ∃ after, fgetsLines maxLine content = before ++ found :: after
  passed : ∀ l ∈ before, matchLine name l = none
  found : (matchLine name found).isSome

/-- `get_value` finds keys of lines: where it finds `name` the file has a line
with that key, and the string it finds it in begins where a line begins. -/
structure ReadsWholeLines (maxLine : Nat) (content name : Bytes) : Prop where
  key : (getValue maxLine content name).isSome → ∃ line ∈ lines content, HasKey name line
  begins : ∀ before found, StopsAt maxLine content name before found →
    before.flatten = [] ∨ before.flatten.getLast? = some newline

/-- A piece inside a line that has the key `name` comes behind the beginning of a
line, its own or an earlier one, that has it. -/
def KeysBegin (room : Nat) (content name : Bytes) : Prop :=
  ∀ front line back k, lines content = front ++ line :: back → 1 ≤ k →
    HasKey name (piece room k line) →
    ∃ earlier ∈ front ++ [line], HasKey name (earlier.take room)

theorem matchLine_isSome_iff {name line : Bytes} (hnul : 0 ∉ line) :
    (matchLine name line).isSome ↔ HasKey name line := by
  rw [matchLine_eq_definition hnul, hasKey_iff]

theorem flatten_flatMap_fgetsLines (maxLine : Nat) (all : List Bytes) :
    (all.flatMap (fgetsLines maxLine)).flatten = all.flatten := by
  induction all with
  | nil => rfl
  | cons line rest ih =>
      rw [List.flatMap_cons, List.flatten_append, flatten_fgetsLines, ih, List.flatten_cons]

/-- Lines that have their newline end in one. -/
theorem getLast?_flatten_of_terminated {front : List Bytes} (h : ∀ l ∈ front, Terminated l) :
    front.flatten = [] ∨ front.flatten.getLast? = some newline := by
  rcases List.eq_nil_or_concat front with rfl | ⟨others, last, rfl⟩
  · exact .inl rfl
  · obtain ⟨body, -, rfl⟩ := h last (by simp)
    right
    simp

section LongLines

variable {maxLine : Nat} {name : Bytes} (hmax : 2 ≤ maxLine)

include hmax in
/-- A string read from a list of lines is a piece of one of them.  Of that line,
if the piece is not its first, and of the lines before it the first pieces are
read earlier. -/
theorem exists_piece {all before after : List Bytes} {found : Bytes}
    (hall : ∀ line ∈ all, OneLine line)
    (hread : all.flatMap (fgetsLines maxLine) = before ++ found :: after) :
    ∃ front line back k, all = front ++ line :: back ∧ found = piece (maxLine - 1) k line ∧
      before.flatten = front.flatten ++ line.take (k * (maxLine - 1)) ∧
      (1 ≤ k → ∀ earlier ∈ front ++ [line], earlier ≠ [] →
        earlier.take (maxLine - 1) ∈ before) := by
  obtain ⟨front, line, back, b, c, rfl, hline, rfl⟩ := exists_of_flatMap_eq hread
  have hone : ∀ earlier ∈ front ++ [line], OneLine earlier := by
    intro earlier hmem
    apply hall
    rw [List.append_cons]
    exact List.mem_append_left _ hmem
  obtain ⟨hpiece, hflat⟩ := piece_of_fgetsLines hmax (hone line (by simp)) hline
  refine ⟨front, line, back, b.length, rfl, hpiece, ?_, ?_⟩
  · rw [List.flatten_append, flatten_flatMap_fgetsLines, hflat]
  · intro hk earlier hmem hne
    have hfirst := fgetsLines_of_oneLine hmax (hone earlier hmem) hne
    rw [piece, Nat.zero_mul, List.drop_zero] at hfirst
    rcases List.mem_append.mp hmem with hfront | hlast
    · refine List.mem_append_left _ (List.mem_flatMap.mpr ⟨earlier, hfront, ?_⟩)
      rw [hfirst]
      exact List.mem_cons_self
    · obtain rfl := List.mem_singleton.mp hlast
      rw [hfirst] at hline
      apply List.mem_append_right
      cases b with
      | nil => simp at hk
      | cons first others =>
          rw [(List.cons.inj hline).1]
          exact List.mem_cons_self

/-- A piece with a key is not empty. -/
theorem HasKey.ne_nil {line : Bytes} (h : HasKey name line) : line ≠ [] := by
  obtain ⟨value, hdefines⟩ := h
  intro hnil
  exact hdefines.nonempty (by rw [hnil]; rfl)

/-- What a line has in front of one of its later pieces is not empty and has no
newline. -/
theorem take_of_piece_ne_nil {room k : Nat} {line : Bytes} (hline : OneLine line)
    (hroom : 0 < room) (hk : 1 ≤ k) (hpiece : piece room k line ≠ []) (front : Bytes) :
    ∃ b, (front ++ line.take (k * room)).getLast? = some b ∧ b ≠ newline := by
  have hlength : k * room < line.length := by
    by_contra hle
    apply hpiece
    rw [piece, List.drop_eq_nil_of_le (by omega), List.take_nil]
  have hpos : 0 < k * room := Nat.mul_pos hk hroom
  have hne : line.take (k * room) ≠ [] := by
    intro hnil
    have hzero := congrArg List.length hnil
    rw [List.length_take, List.length_nil] at hzero
    omega
  have hinside : line.take (k * room) = line.dropLast.take (k * room) := by
    rw [List.dropLast_eq_take, List.take_take, Nat.min_eq_left (by omega)]
  refine ⟨(line.take (k * room)).getLast hne, ?_, ?_⟩
  · rw [List.getLast?_append, List.getLast?_eq_some_getLast hne, Option.some_or]
  · intro heq
    apply hline
    have hmem := List.getLast_mem hne
    rw [heq, hinside] at hmem
    exact List.mem_of_mem_take hmem

variable {content : Bytes} (hnul : 0 ∉ content)

include hmax hnul in
/-- Where keys begin with lines, the loop ends at the beginning of a line. -/
theorem beginning_of_keysBegin (hkeys : KeysBegin (maxLine - 1) content name)
    {before : List Bytes} {found : Bytes} (hstops : StopsAt maxLine content name before found) :
    ∃ front line back, lines content = front ++ line :: back ∧
      before.flatten = front.flatten ∧ found = line.take (maxLine - 1) := by
  obtain ⟨after, hread⟩ := hstops.read
  have hmem : ∀ l ∈ fgetsLines maxLine content, 0 ∉ l :=
    fun l hl h => hnul (mem_of_mem_fgetsLines hl h)
  have hfound : HasKey name found :=
    (matchLine_isSome_iff (hmem found (by simp [hread]))).mp hstops.found
  rw [fgetsLines_eq_flatMap] at hread
  obtain ⟨front, line, back, k, hlines, hpiece, hflat, hearlier⟩ :=
    exists_piece hmax (fun line hline => oneLine_of_mem_lines hline) hread
  rcases Nat.eq_zero_or_pos k with rfl | hk
  · refine ⟨front, line, back, hlines, by simpa using hflat, ?_⟩
    rw [hpiece, piece, Nat.zero_mul, List.drop_zero]
  · obtain ⟨earlier, hfront, hkey⟩ := hkeys front line back k hlines hk (hpiece ▸ hfound)
    have hne : earlier ≠ [] := by
      intro hnil
      exact hkey.ne_nil (by rw [hnil, List.take_nil])
    -- the loop has passed a piece that has the key
    have hbefore := hearlier hk earlier hfront hne
    have hpassed := hstops.passed _ hbefore
    rw [← fgetsLines_eq_flatMap] at hread
    have hsome := (matchLine_isSome_iff (hmem _ (by simp [hread, hbefore]))).mpr hkey
    rw [hpassed] at hsome
    cases hsome

include hmax hnul in
/-- Where some key does not, the loop ends inside a line. -/
theorem keysBegin_of_begins
    (hbegins : ∀ before found, StopsAt maxLine content name before found →
      before.flatten = [] ∨ before.flatten.getLast? = some newline) :
    KeysBegin (maxLine - 1) content name := by
  intro front line back k hlines hk hkey
  by_contra hnot
  have hone : ∀ l ∈ front ++ [line], OneLine l := by
    intro l hl
    have hl' : l ∈ lines content := by
      rw [hlines, List.append_cons]
      exact List.mem_append_left _ hl
    exact oneLine_of_mem_lines hl'
  -- what is read up to the end of the line
  have hread : fgetsLines maxLine content =
      (front ++ [line]).flatMap (fgetsLines maxLine) ++ back.flatMap (fgetsLines maxLine) := by
    rw [fgetsLines_eq_flatMap, hlines, List.append_cons, List.flatMap_append]
  have hmem : ∀ l ∈ (front ++ [line]).flatMap (fgetsLines maxLine), 0 ∉ l := by
    intro l hl h
    have hl' : l ∈ fgetsLines maxLine content := by
      rw [hread]
      exact List.mem_append_left _ hl
    exact hnul (mem_of_mem_fgetsLines hl' h)
  have hpiece : piece (maxLine - 1) k line ∈ (front ++ [line]).flatMap (fgetsLines maxLine) := by
    obtain ⟨b, c, -, hline⟩ := fgetsLines_of_piece hmax (hone line (by simp)) hkey.ne_nil
    exact List.mem_flatMap.mpr ⟨line, by simp, by simp [hline]⟩
  have hfinds : (((front ++ [line]).flatMap (fgetsLines maxLine)).findSome?
      (matchLine name)).isSome := by
    rw [List.findSome?_isSome_iff]
    exact ⟨_, hpiece, (matchLine_isSome_iff (hmem _ hpiece)).mpr hkey⟩
  obtain ⟨value, hvalue⟩ := Option.isSome_iff_exists.mp hfinds
  obtain ⟨before, found, after, hsplit, hfound, hpassed⟩ := List.findSome?_eq_some_iff.mp hvalue
  have hstops : StopsAt maxLine content name before found :=
    ⟨⟨after ++ back.flatMap (fgetsLines maxLine), by rw [hread, hsplit]; simp⟩, hpassed,
      by rw [hfound]; rfl⟩
  have hfoundkey : HasKey name found :=
    (matchLine_isSome_iff (hmem found (by simp [hsplit]))).mp hstops.found
  obtain ⟨front', line', back', k', hall, hpiece', hflat, -⟩ := exists_piece hmax hone hsplit
  have hline' : line' ∈ front ++ [line] := by
    rw [hall]
    simp
  rcases Nat.eq_zero_or_pos k' with rfl | hk'
  · rw [piece, Nat.zero_mul, List.drop_zero] at hpiece'
    exact hnot ⟨line', hline', hpiece' ▸ hfoundkey⟩
  · obtain ⟨b, hb, hne⟩ := take_of_piece_ne_nil (hone line' hline') (by omega) hk'
      (hpiece' ▸ hfoundkey.ne_nil) front'.flatten
    rw [← hflat] at hb
    rcases hbegins before found hstops with hnil | hlast
    · simp [hnil] at hb
    · exact hne (Option.some.inj (hb.symm.trans hlast))

end LongLines

/-- **Whole lines, exactly.**  On a file without NULs, `get_value` takes no part
of a line for a line if and only if every piece inside a line that has the key
comes behind the beginning of a line that has it. -/
theorem reads_whole_lines_iff {maxLine : Nat} {content : Bytes} (hmax : 2 ≤ maxLine)
    (hnul : 0 ∉ content) (name : Bytes) :
    ReadsWholeLines maxLine content name ↔ KeysBegin (maxLine - 1) content name := by
  constructor
  · intro h
    exact keysBegin_of_begins hmax hnul h.begins
  · intro hkeys
    constructor
    · intro hfinds
      obtain ⟨value, hvalue⟩ := Option.isSome_iff_exists.mp hfinds
      obtain ⟨before, found, after, hread, hfound, hpassed⟩ :=
        List.findSome?_eq_some_iff.mp hvalue
      have hstops : StopsAt maxLine content name before found :=
        ⟨⟨after, hread⟩, hpassed, by rw [hfound]; rfl⟩
      obtain ⟨front, line, back, hlines, -, rfl⟩ :=
        beginning_of_keysBegin hmax hnul hkeys hstops
      have hmem : line.take (maxLine - 1) ∈ fgetsLines maxLine content := by
        rw [hread]
        exact List.mem_append_right _ List.mem_cons_self
      have hfoundkey : HasKey name (line.take (maxLine - 1)) :=
        (matchLine_isSome_iff fun h => hnul (mem_of_mem_fgetsLines hmem h)).mp hstops.found
      exact ⟨line, by simp [hlines], hfoundkey.of_isPrefix (List.take_prefix _ _)⟩
    · intro before found hstops
      obtain ⟨front, line, back, hlines, hflat, -⟩ :=
        beginning_of_keysBegin hmax hnul hkeys hstops
      rw [hflat]
      apply getLast?_flatten_of_terminated
      intro l hl
      have hmem : l ∈ lines content := by
        rw [hlines]
        exact List.mem_append_left _ hl
      exact terminated_of_newline_mem hmem (newline_mem_of_append hlines l hl)

/-- Where all lines fit, there are no pieces inside them. -/
theorem keysBegin_of_fit {room : Nat} {content : Bytes}
    (hfit : ∀ line ∈ lines content, line.length ≤ room) (name : Bytes) :
    KeysBegin room content name := by
  intro front line back k hlines hk hkey
  have hlength : line.length ≤ k * room :=
    (hfit line (by simp [hlines])).trans (Nat.le_mul_of_pos_left room hk)
  exact absurd (by rw [piece, List.drop_eq_nil_of_le hlength, List.take_nil]) hkey.ne_nil

/-- A file of two short lines: the premises hold, and its lines are read whole. -/
theorem reads_whole_lines_short :
    let content := text "user=a\nmode=b\n"
    (2 ≤ 200 ∧ 0 ∉ content) ∧
    (ReadsWholeLines 200 content (text "mode") ↔ KeysBegin (200 - 1) content (text "mode")) ∧
    ReadsWholeLines 200 content (text "mode") := by
  intro content
  have hnul : 0 ∉ content := by decide
  have hiff := reads_whole_lines_iff (show 2 ≤ 200 by decide) hnul (text "mode")
  exact ⟨⟨by decide, hnul⟩, hiff, hiff.mpr (keysBegin_of_fit (by decide) _)⟩

/-- One line: the first 199 bytes fill the buffer, and behind them stands a key
of `login.c`. -/
def longLine : Bytes := List.replicate 199 120 ++ text "username=root\n"

/-- The end of the long line is read as a user name that no line has. -/
theorem reads_end_of_long_line :
    (2 ≤ 200 ∧ 0 ∉ longLine) ∧ getValue 200 longLine (text "username") = some (text "root") ∧
      ¬ ReadsWholeLines 200 longLine (text "username") := by
  have hfinds : getValue 200 longLine (text "username") = some (text "root") := by
    decide +kernel
  have hnone : ∀ line ∈ lines longLine, ¬ HasKey (text "username") line := by
    decide +kernel
  refine ⟨by decide +kernel, hfinds, fun h => ?_⟩
  obtain ⟨line, hline, hkey⟩ := h.key (by rw [hfinds]; rfl)
  exact hnone line hline hkey

/-! ## Writing through buffers -/

/-- The two buffers `set_value` appends to. -/
inductive Buffer where
  | line
  | writeFileData
deriving DecidableEq

def Buffer.size (maxLine : Nat) : Buffer → Nat
  | .line => maxLine
  | .writeFileData => writeFileDataSize

@[simp] theorem Buffer.size_line (maxLine : Nat) : Buffer.line.size maxLine = maxLine := rfl

@[simp] theorem Buffer.size_writeFileData (maxLine : Nat) :
    Buffer.writeFileData.size maxLine = writeFileDataSize := rfl

/-- A call of `strcat`: the buffer and the index where it writes the terminator,
the last byte it writes. -/
structure Strcat where
  buffer : Buffer
  terminator : Nat

/-- The calls of `strcat` in the loop of `set_value`, in order; `length` is the
length of `write_file_data` so far. -/
def strcatLoop (name newValue : Bytes) : List Bytes → Nat → List Strcat
  | [], _ => []
  | line :: rest, length =>
      if name <+: cstr line then
        [⟨.line, name.length⟩,
          ⟨.line, name.length + 1⟩,
          ⟨.line, name.length + 1 + newValue.length⟩,
          ⟨.line, name.length + 1 + newValue.length + 1⟩,
          ⟨.writeFileData, length + (name.length + 1 + newValue.length + 1)⟩] ++
          strcatLoop name newValue rest (length + (name.length + 1 + newValue.length + 1))
      else
        ⟨.writeFileData, length + (cstr line).length⟩ ::
          strcatLoop name newValue rest (length + (cstr line).length)

namespace SetCall

/-- The calls of `strcat` that a call of `set_value` makes. -/
def strcats (call : SetCall) (content : Bytes) : List Strcat :=
  strcatLoop call.name call.newValue (fgetsLines call.maxLine content) 0

end SetCall

/-- All bytes that are written by `strcat` are bytes of the buffer. -/
def Inside (maxLine : Nat) (strcats : List Strcat) : Prop :=
  ∀ s ∈ strcats, s.terminator < s.buffer.size maxLine

instance (maxLine : Nat) (strcats : List Strcat) : Decidable (Inside maxLine strcats) :=
  List.decidableBAll _ strcats

section Strcats

variable {maxLine : Nat} {name newValue : Bytes}

/-- The calls for one line are inside when the line built, if any, fits and the
collected text still fits behind it. -/
theorem inside_strcatLoop_cons {line : Bytes} {rest : List Bytes} {length : Nat} :
    Inside maxLine (strcatLoop name newValue (line :: rest) length) ↔
      (name <+: cstr line → name.length + newValue.length + 2 < maxLine) ∧
      length + (rewriteLine name newValue (cstr line)).length < writeFileDataSize ∧
      Inside maxLine (strcatLoop name newValue rest
        (length + (rewriteLine name newValue (cstr line)).length)) := by
  have hsum : name.length + 1 + newValue.length + 1 = name.length + newValue.length + 2 := by
    omega
  rw [strcatLoop, length_rewriteLine, hsum]
  by_cases hhit : name <+: cstr line
  · rw [if_pos hhit, if_pos hhit]
    simp only [Inside, List.cons_append, List.nil_append, List.forall_mem_cons,
      Buffer.size_line, Buffer.size_writeFileData, hhit, forall_const]
    constructor
    · intro h
      exact h.2.2.2
    · intro h
      exact ⟨by omega, by omega, by omega, h⟩
  · rw [if_neg hhit, if_neg hhit]
    simp only [Inside, List.forall_mem_cons, Buffer.size_writeFileData, hhit, false_implies,
      true_and]

/-- The loop goes on as long as its calls of `strcat` are inside. -/
theorem rewriteLoop_isSome (lines : List Bytes) :
    ∀ writeFileData : Bytes,
      (rewriteLoop maxLine name newValue lines writeFileData).isSome ↔
        Inside maxLine (strcatLoop name newValue lines writeFileData.length) := by
  induction lines with
  | nil => intro writeFileData; simp [rewriteLoop, strcatLoop, Inside]
  | cons line rest ih =>
      intro writeFileData
      have htail := ih (writeFileData ++ rewriteLine name newValue (cstr line))
      rw [List.length_append] at htail
      have hlength := length_rewriteLine name newValue (cstr line)
      rw [inside_strcatLoop_cons, ← htail, rewriteLoop]
      unfold rewriteLine at hlength ⊢
      by_cases hhit : name <+: cstr line
      · simp only [if_pos hhit, List.length_append] at hlength ⊢
        rw [hlength]
        split
        · rename_i hfits
          exact ⟨fun h => ⟨fun _ => hfits.1, hfits.2, h⟩, fun h => h.2.2⟩
        · rename_i hover
          exact iff_of_false (by simp) fun h => hover ⟨h.1 hhit, h.2.1⟩
      · simp only [if_neg hhit, List.length_append]
        split
        · rename_i hfits
          exact ⟨fun h => ⟨fun hne => absurd hne hhit, hfits, h⟩, fun h => h.2.2⟩
        · rename_i hover
          exact iff_of_false (by simp) fun h => hover h.2.1

/-- All calls are inside exactly when the line built, if any, fits and so does
the whole text. -/
theorem inside_strcatLoop_iff (lines : List Bytes) :
    ∀ length, length < writeFileDataSize →
      (Inside maxLine (strcatLoop name newValue lines length) ↔
        ((∃ line ∈ lines, name <+: cstr line) → name.length + newValue.length + 2 < maxLine) ∧
          length + (lines.map fun line => (rewriteLine name newValue (cstr line)).length).sum <
            writeFileDataSize) := by
  induction lines with
  | nil =>
      intro length hlength
      simpa [strcatLoop, Inside] using hlength
  | cons line rest ih =>
      intro length hlength
      rw [inside_strcatLoop_cons, List.map_cons, List.sum_cons, ← Nat.add_assoc]
      by_cases hfits : length + (rewriteLine name newValue (cstr line)).length < writeFileDataSize
      · rw [ih _ hfits, and_iff_right hfits, ← and_assoc]
        apply and_congr_left'
        simp only [List.mem_cons, exists_eq_or_imp]
        exact or_imp.symm
      · exact iff_of_false (fun h => hfits h.2.1) fun h => hfits (by omega)

end Strcats

/-- **Inside the buffers, exactly.**  `set_value` writes inside its buffers if and
only if the line it builds fits `MAX_LINE`, when some line read begins with the
name, and what it collects fits `write_file_data`; these are the calls that the
embedding carries out. -/
theorem strcat_inside_iff (call : SetCall) (content : Bytes) :
    (Inside call.maxLine (call.strcats content) ↔
      ((∃ line ∈ fgetsLines call.maxLine content, call.name <+: cstr line) →
        call.name.length + call.newValue.length + 3 ≤ call.maxLine) ∧
      call.rewrittenSize content + 1 ≤ 1000) ∧
    ((SetCall.apply content call).isSome ↔ Inside call.maxLine (call.strcats content)) := by
  constructor
  · have hsize : call.rewrittenSize content = 0 + ((fgetsLines call.maxLine content).map
        fun line => (rewriteLine call.name call.newValue (cstr line)).length).sum := by
      rw [← SetCall.length_rewritten, SetCall.rewritten, List.length_flatten, List.map_map,
        Nat.zero_add]
      rfl
    rw [hsize]
    exact inside_strcatLoop_iff (fgetsLines call.maxLine content) 0 (by decide)
  · rw [SetCall.apply, setValue, Option.isSome_map]
    exact rewriteLoop_isSome (fgetsLines call.maxLine content) []

/-- A file of a hundred lines of ten bytes: with its terminator the content needs
one byte more than `write_file_data` has, whatever is set. -/
theorem strcat_overruns_on_long_file :
    ¬ Inside 200 (SetCall.strcats ⟨200, text "user", text "a", by decide⟩
      (List.replicate 100 (text "mode=long\n")).flatten) := by
  decide +kernel

end Settings
