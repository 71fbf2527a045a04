import Mathlib.Data.List.DropRight
import Mathlib.Data.List.TakeWhile
import Mathlib.Data.Nat.Digits.Lemmas

/-!
# C strings and line input

Byte strings as a C program sees them.  A C string ends at its first NUL
(`cstr`); `isspace` is that of the "C" locale (`isSpace`); and `fgets` hands a
stream out in lines, cutting a line that does not fit its buffer into pieces
(`fgetsLines`, whose defining equation per call is `fgetsLines_eq`).

The rules used downstream are `fgetsLines_terminated`, which reads terminated
lines that fit off the front of a stream, and `stream_induction`, the induction
along the lines of a stream with its possibly unterminated last one; for a buffer,
`cstr_append` and `cstr_set`, which say where its string ends; and for numbers,
`canonical_numeral`, by which a numeral is the shortest and stands for its number.
-/

namespace CText

/-- A byte string. -/
abbrev Bytes := List UInt8

/-- The bytes of an ASCII literal. -/
def text (literal : String) : Bytes := literal.toList.map fun c => UInt8.ofNat c.toNat

def newline : UInt8 := 10

/-- `isspace` in the "C" locale. -/
def isSpace (byte : UInt8) : Bool := byte = 32 || (9 ≤ byte && byte ≤ 13)

/-- The C string that starts a buffer: everything before the first NUL. -/
def cstr (buffer : Bytes) : Bytes := buffer.takeWhile (· ≠ 0)

/-- Without a NUL all bytes are in the string. -/
theorem cstr_eq_self {bytes : Bytes} (h : 0 ∉ bytes) : cstr bytes = bytes := by
  apply List.takeWhile_eq_self_iff.mpr
  intro b hb
  have hne : b ≠ 0 := fun heq => h (heq ▸ hb)
  simpa using hne

/-- A C string holds no NUL. -/
theorem zero_not_mem_cstr (buffer : Bytes) : 0 ∉ cstr buffer := by
  intro hmem
  simpa using List.mem_takeWhile_imp hmem

/-- All bytes are in the string exactly if there is no NUL. -/
theorem cstr_eq_self_iff {bytes : Bytes} : cstr bytes = bytes ↔ 0 ∉ bytes := by
  refine ⟨fun h => ?_, cstr_eq_self⟩
  rw [← h]
  exact zero_not_mem_cstr bytes

/-- A front without NUL is in the string. -/
theorem cstr_append {front : Bytes} (h : 0 ∉ front) (rest : Bytes) :
    cstr (front ++ rest) = front ++ cstr rest := by
  rw [cstr, List.takeWhile_append_of_pos]
  · rfl
  · intro b hb
    have hne : b ≠ 0 := fun heq => h (heq ▸ hb)
    simpa using hne

/-- The string from an index on is empty exactly if a NUL stands there. -/
theorem cstr_drop_eq_nil_iff {buffer : Bytes} {n : Nat} (h : n < buffer.length) :
    cstr (buffer.drop n) = [] ↔ buffer[n]? = some 0 := by
  rw [cstr, List.drop_eq_getElem_cons h, List.getElem?_eq_getElem h, Option.some.injEq]
  by_cases hzero : buffer[n] = 0 <;> simp [hzero, h]

/-- A NUL stored into a buffer cuts its string there. -/
theorem cstr_set (buffer : Bytes) : ∀ n, cstr (buffer.set n 0) = (cstr buffer).take n := by
  induction buffer with
  | nil => intro n; simp [cstr]
  | cons b rest ih =>
      intro n
      cases n with
      | zero => simp [cstr]
      | succ n =>
          by_cases hb : b = 0
          · simp [cstr, hb]
          · have hcons : ∀ tail : Bytes, cstr (b :: tail) = b :: cstr tail :=
              fun tail => List.takeWhile_cons_of_pos (by simpa using hb)
            rw [List.set_cons_succ, hcons, hcons, ih, List.take_succ_cons]

/-! ## White space -/

/-- A byte string without white space at either end. -/
def trim (bytes : Bytes) : Bytes := (bytes.rdropWhile isSpace).dropWhile isSpace

/-- A first byte that is kept stays when bytes are dropped at the end. -/
theorem rdropWhile_cons_neg {p : UInt8 → Bool} {b : UInt8} (hb : p b = false)
    (rest : Bytes) : (b :: rest).rdropWhile p = b :: rest.rdropWhile p := by
  simp only [List.rdropWhile, List.reverse_cons, List.dropWhile_append]
  split
  · rename_i hempty
    simp [List.isEmpty_iff.mp hempty, hb]
  · simp

/-- A first byte that is dropped makes no difference to what is left. -/
theorem dropWhile_rdropWhile_cons_pos {p : UInt8 → Bool} {b : UInt8} (hb : p b = true)
    (rest : Bytes) :
    ((b :: rest).rdropWhile p).dropWhile p = (rest.rdropWhile p).dropWhile p := by
  simp only [List.rdropWhile, List.reverse_cons, List.dropWhile_append]
  split
  · rename_i hempty
    simp [List.isEmpty_iff.mp hempty, hb]
  · simp [hb]

/-- The two ends can be trimmed in either order. -/
theorem rdropWhile_dropWhile_isSpace (bytes : Bytes) :
    (bytes.dropWhile isSpace).rdropWhile isSpace = trim bytes := by
  unfold trim
  induction bytes with
  | nil => rfl
  | cons b rest ih =>
      cases hb : isSpace b with
      | true => rw [List.dropWhile_cons_of_pos hb, ih, dropWhile_rdropWhile_cons_pos hb]
      | false =>
          rw [List.dropWhile_cons_of_neg (by simp [hb]), rdropWhile_cons_neg hb,
            List.dropWhile_cons_of_neg (by simp [hb])]

/-- No white space at either end. -/
def Trimmed (bytes : Bytes) : Prop :=
  (∀ b, bytes.head? = some b → isSpace b = false) ∧
    ∀ b, bytes.getLast? = some b → isSpace b = false

instance (bytes : Bytes) : Decidable (Trimmed bytes) :=
  decidable_of_iff
    (bytes.head?.all (!isSpace ·) = true ∧ bytes.getLast?.all (!isSpace ·) = true)
    (by
      unfold Trimmed
      cases bytes.head? <;> cases bytes.getLast? <;> simp)

/-- Nothing is dropped at the front if the first byte is kept. -/
theorem dropWhile_eq_self_of_head {p : UInt8 → Bool} {bytes : Bytes}
    (h : ∀ b, bytes.head? = some b → p b = false) : bytes.dropWhile p = bytes := by
  cases bytes with
  | nil => rfl
  | cons b rest => exact List.dropWhile_cons_of_neg (by simp [h b rfl])

/-- Nothing is dropped at the end if the last byte is kept. -/
theorem rdropWhile_eq_self_of_last {p : UInt8 → Bool} {bytes : Bytes}
    (h : ∀ b, bytes.getLast? = some b → p b = false) : bytes.rdropWhile p = bytes := by
  apply List.rdropWhile_eq_self_iff.mpr
  intro hne
  simp [h _ (List.getLast?_eq_some_getLast hne)]

/-- A trimmed text stays. -/
theorem trim_of_trimmed {bytes : Bytes} (h : Trimmed bytes) : trim bytes = bytes := by
  rw [trim, rdropWhile_eq_self_of_last h.2, dropWhile_eq_self_of_head h.1]

/-- Trimming adds no bytes. -/
theorem mem_of_mem_trim {bytes : Bytes} {b : UInt8} (h : b ∈ trim bytes) : b ∈ bytes :=
  (List.rdropWhile_prefix isSpace _).subset ((List.dropWhile_suffix isSpace).subset h)

/-- What trimming leaves is trimmed. -/
theorem trimmed_trim (bytes : Bytes) : Trimmed (trim bytes) := by
  constructor
  · intro b hb
    have hnot := List.head?_dropWhile_not isSpace (bytes.rdropWhile isSpace)
    rw [← trim, hb] at hnot
    simpa using hnot
  · intro b hb
    rw [← rdropWhile_dropWhile_isSpace] at hb
    have hne : (bytes.dropWhile isSpace).rdropWhile isSpace ≠ [] := by
      intro hnil
      simp [hnil] at hb
    have hlast := List.rdropWhile_last_not isSpace (bytes.dropWhile isSpace) hne
    rw [List.getLast?_eq_some_getLast hne] at hb
    obtain rfl := Option.some.inj hb
    simpa using hlast

/-! ## Reading lines -/

/-- At most `room` bytes of a stream, through the first newline, and the
rest. -/
def takeLine : Nat → Bytes → Bytes × Bytes
  | 0, stream => ([], stream)
  | _ + 1, [] => ([], [])
  | room + 1, b :: rest =>
      if b = newline then ([b], rest)
      else (b :: (takeLine room rest).1, (takeLine room rest).2)

/-- `fgets` into a buffer of `size` bytes: `none` at the end of the stream. -/
def fgets (size : Nat) (stream : Bytes) : Option (Bytes × Bytes) :=
  if stream = [] then none else some (takeLine (size - 1) stream)

/-- Put a byte in front of the first line. -/
def consLine (b : UInt8) : List Bytes → List Bytes
  | [] => [[b]]
  | line :: rest => (b :: line) :: rest

/-- What `fgets` returns until the end of the stream, when the buffer has room
for `room` more bytes of the line begun. -/
def fgetsFrom (size : Nat) : Nat → Bytes → List Bytes
  | _, [] => []
  | room, b :: rest =>
      if b = newline ∨ room ≤ 1 then [b] :: fgetsFrom size (size - 1) rest
      else consLine b (fgetsFrom size (room - 1) rest)

/-- The strings successive calls of `fgets` return. -/
def fgetsLines (size : Nat) (stream : Bytes) : List Bytes :=
  fgetsFrom size (size - 1) stream

/-- The lines of a stream, each with its newline; the last may lack it. -/
def lines : Bytes → List Bytes
  | [] => []
  | b :: rest => if b = newline then [b] :: lines rest else consLine b (lines rest)

/-- An empty file has no lines. -/
@[simp] theorem lines_nil : lines [] = [] := rfl

/-- `fgets` reads nothing from it. -/
@[simp] theorem fgetsLines_nil (size : Nat) : fgetsLines size [] = [] := rfl

/-- The first piece, and then `fgets` again on what it left. -/
theorem fgetsFrom_eq (size : Nat) :
    ∀ (room : Nat) (stream : Bytes), 0 < room → stream ≠ [] →
      fgetsFrom size room stream =
        (takeLine room stream).1 :: fgetsLines size (takeLine room stream).2 := by
  intro room
  induction room with
  | zero => intro stream hroom; omega
  | succ room ih =>
      intro stream _ hne
      cases stream with
      | nil => exact absurd rfl hne
      | cons b rest =>
          by_cases hb : b = newline
          · simp [fgetsFrom, takeLine, hb, fgetsLines]
          · cases room with
            | zero => simp [fgetsFrom, takeLine, hb, fgetsLines]
            | succ room =>
                cases rest with
                | nil => simp [fgetsFrom, takeLine, hb, consLine, fgetsLines]
                | cons c rest =>
                    have h := ih (c :: rest) (by omega) (by simp)
                    have hfrom : fgetsFrom size (room + 1 + 1) (b :: c :: rest) =
                        consLine b (fgetsFrom size (room + 1) (c :: rest)) := by
                      rw [fgetsFrom, if_neg (by simp [hb]), Nat.add_sub_cancel]
                    have htake : takeLine (room + 1 + 1) (b :: c :: rest) =
                        (b :: (takeLine (room + 1) (c :: rest)).1,
                          (takeLine (room + 1) (c :: rest)).2) := by
                      rw [takeLine, if_neg hb]
                    rw [hfrom, h, consLine, htake]

/-- The line list is what one call of `fgets` returns, followed by what the
later calls return. -/
theorem fgetsLines_eq {size : Nat} (hsize : 2 ≤ size) (stream : Bytes) :
    fgetsLines size stream =
      match fgets size stream with
      | none => []
      | some (line, rest) => line :: fgetsLines size rest := by
  by_cases hnil : stream = []
  · simp [hnil, fgets]
  · rw [fgets, if_neg hnil]
    exact fgetsFrom_eq size (size - 1) stream (by omega) hnil

/-! ## One line at a time -/

/-- A line that fits is read as one piece. -/
theorem fgetsFrom_line (size : Nat) (rest : Bytes) :
    ∀ (body : Bytes) (room : Nat), newline ∉ body → body.length + 1 ≤ room →
      fgetsFrom size room (body ++ newline :: rest) =
        (body ++ [newline]) :: fgetsLines size rest := by
  intro body
  induction body with
  | nil => intro room _ _; simp [fgetsFrom, fgetsLines]
  | cons b body ih =>
      intro room hbody hroom
      rw [List.length_cons] at hroom
      have hb : b ≠ newline := fun h => hbody (h ▸ List.mem_cons_self)
      have htail := ih (room - 1) (fun h => hbody (List.mem_cons_of_mem _ h)) (by omega)
      rw [List.cons_append, fgetsFrom, if_neg (by simp [hb]; omega), htail]
      rfl

/-- A terminated line that fits is returned whole. -/
theorem fgetsLines_line {size : Nat} {body : Bytes} (rest : Bytes)
    (hbody : newline ∉ body) (hfit : body.length + 1 ≤ size - 1) :
    fgetsLines size (body ++ [newline] ++ rest) =
      (body ++ [newline]) :: fgetsLines size rest := by
  rw [List.append_assoc]
  exact fgetsFrom_line size rest body (size - 1) hbody hfit

/-- A line ends at its newline. -/
theorem lines_line {body : Bytes} (rest : Bytes) (hbody : newline ∉ body) :
    lines (body ++ newline :: rest) = (body ++ [newline]) :: lines rest := by
  induction body with
  | nil => simp [lines]
  | cons b body ih =>
      have hb : b ≠ newline := fun h => hbody (h ▸ List.mem_cons_self)
      have htail := ih (fun h => hbody (List.mem_cons_of_mem _ h))
      rw [List.cons_append, lines, if_neg hb, htail]
      rfl

/-- The last line may have none. -/
theorem lines_last {body : Bytes} (hne : body ≠ []) (hbody : newline ∉ body) :
    lines body = [body] := by
  induction body with
  | nil => exact absurd rfl hne
  | cons b body ih =>
      have hb : b ≠ newline := fun h => hbody (h ▸ List.mem_cons_self)
      rw [lines, if_neg hb]
      cases body with
      | nil => rfl
      | cons c body =>
          rw [ih (by simp) (fun h => hbody (List.mem_cons_of_mem _ h))]
          rfl

/-- The last line, without a newline, is one piece if it fits. -/
theorem fgetsFrom_last (size : Nat) :
    ∀ (body : Bytes) (room : Nat), body ≠ [] → newline ∉ body → body.length ≤ room →
      fgetsFrom size room body = [body] := by
  intro body
  induction body with
  | nil => intro room hne; exact absurd rfl hne
  | cons b body ih =>
      intro room _ hbody hroom
      have hb : b ≠ newline := fun h => hbody (h ▸ List.mem_cons_self)
      cases body with
      | nil => by_cases hr : room ≤ 1 <;> simp [fgetsFrom, hb, hr, consLine]
      | cons c body =>
          simp only [List.length_cons] at hroom
          have htail := ih (room - 1) (by simp)
            (fun h => hbody (List.mem_cons_of_mem _ h)) (by simp only [List.length_cons]; omega)
          rw [fgetsFrom, if_neg (by simp [hb]; omega), htail]
          rfl

/-- **Induction along lines.**  A stream is empty, or one unterminated line, or a
terminated line followed by a stream. -/
theorem stream_induction {P : Bytes → Prop} (nil : P [])
    (last : ∀ body, body ≠ [] → newline ∉ body → P body)
    (line : ∀ body rest, newline ∉ body → P rest → P (body ++ newline :: rest)) :
    ∀ stream, P stream := by
  intro stream
  induction hlen : stream.length using Nat.strongRecOn generalizing stream with
  | ind n ih =>
      by_cases hmem : newline ∈ stream
      · obtain ⟨body, rest, hsplit, hbody⟩ := List.eq_append_cons_of_mem hmem
        subst hsplit
        refine line body rest hbody (ih rest.length ?_ rest rfl)
        simp at hlen
        omega
      · by_cases hnil : stream = []
        · exact hnil ▸ nil
        · exact last stream hnil hmem

/-- When every line fits the buffer, `fgets` returns the lines. -/
theorem fgetsLines_eq_lines {size : Nat} {stream : Bytes}
    (hfit : ∀ line ∈ lines stream, line.length ≤ size - 1) :
    fgetsLines size stream = lines stream := by
  induction stream using stream_induction with
  | nil => rfl
  | last body hne hbody =>
      rw [lines_last hne hbody] at hfit ⊢
      exact fgetsFrom_last size body (size - 1) hne hbody (hfit body List.mem_cons_self)
  | line body rest hbody ih =>
      rw [lines_line rest hbody] at hfit ⊢
      rw [fgetsLines, fgetsFrom_line size rest body _ hbody
          (by simpa using hfit _ List.mem_cons_self),
        ih (fun l hl => hfit l (List.mem_cons_of_mem _ hl))]

/-- A line with its newline at the end and nowhere else. -/
def Terminated (line : Bytes) : Prop := ∃ body, newline ∉ body ∧ line = body ++ [newline]

/-- A line that has its newline has it there. -/
theorem terminated_of_newline_mem {stream line : Bytes} (hline : line ∈ lines stream)
    (hnewline : newline ∈ line) : Terminated line := by
  induction stream using stream_induction with
  | nil => simp at hline
  | last body hne hbody =>
      rw [lines_last hne hbody, List.mem_singleton] at hline
      exact absurd (hline ▸ hnewline) hbody
  | line body rest hbody ih =>
      rw [lines_line rest hbody] at hline
      rcases List.mem_cons.mp hline with rfl | hline
      · exact ⟨body, hbody, rfl⟩
      · exact ih hline

/-- Terminated lines that fit are returned one by one, whatever follows them. -/
theorem fgetsLines_terminated {size : Nat} (rest : Bytes) :
    ∀ front : List Bytes, (∀ line ∈ front, Terminated line) →
      (∀ line ∈ front, line.length ≤ size - 1) →
      fgetsLines size (front.flatten ++ rest) = front ++ fgetsLines size rest := by
  intro front
  induction front with
  | nil => intro _ _; rfl
  | cons line front ih =>
      intro hterminated hfit
      obtain ⟨body, hbody, rfl⟩ := hterminated line List.mem_cons_self
      have hlen : body.length + 1 ≤ size - 1 := by
        simpa using hfit _ List.mem_cons_self
      rw [List.flatten_cons, List.append_assoc, fgetsLines_line _ hbody hlen,
        ih (fun l hl => hterminated l (List.mem_cons_of_mem _ hl))
          (fun l hl => hfit l (List.mem_cons_of_mem _ hl)),
        List.cons_append]

/-- No line is empty: it has its newline at least. -/
theorem ne_nil_of_mem_lines {stream line : Bytes} (h : line ∈ lines stream) : line ≠ [] := by
  induction stream using stream_induction with
  | nil => simp at h
  | last body hne hbody =>
      rw [lines_last hne hbody, List.mem_singleton] at h
      exact h ▸ hne
  | line body rest hbody ih =>
      rw [lines_line rest hbody] at h
      rcases List.mem_cons.mp h with rfl | h
      · simp
      · exact ih h

/-- A line with another behind it has its newline. -/
theorem newline_mem_of_append {stream : Bytes} {before after : List Bytes} {line : Bytes}
    (hlines : lines stream = before ++ line :: after) : ∀ l ∈ before, newline ∈ l := by
  induction stream using stream_induction generalizing before with
  | nil => simp at hlines
  | last body hne hbody =>
      rw [lines_last hne hbody] at hlines
      cases before with
      | nil => simp
      | cons first others => simp at hlines
  | line body rest hbody ih =>
      rw [lines_line rest hbody] at hlines
      cases before with
      | nil => simp
      | cons first others =>
          obtain ⟨hfirst, hrest⟩ := List.cons.inj hlines
          intro l hl
          rcases List.mem_cons.mp hl with rfl | hl
          · rw [← hfirst]
            simp
          · exact ih hrest l hl

/-- A byte in front of the first line. -/
theorem flatten_consLine (b : UInt8) (rest : List Bytes) :
    (consLine b rest).flatten = b :: rest.flatten := by
  cases rest <;> rfl

/-- The pieces put together are the stream. -/
theorem flatten_fgetsFrom (size : Nat) :
    ∀ (stream : Bytes) (room : Nat), (fgetsFrom size room stream).flatten = stream := by
  intro stream
  induction stream with
  | nil => intro room; rfl
  | cons b rest ih =>
      intro room
      rw [fgetsFrom]
      split
      · rw [List.flatten_cons, ih, List.singleton_append]
      · rw [flatten_consLine, ih]

/-- Reading cuts the stream up and loses nothing. -/
theorem flatten_fgetsLines (size : Nat) (stream : Bytes) :
    (fgetsLines size stream).flatten = stream :=
  flatten_fgetsFrom size stream (size - 1)

/-! ## Long lines

A line that does not fit is returned in pieces of `size - 1` bytes, the last of
them shorter; the next line begins a new piece. -/

/-- The byte goes to the first of the lines. -/
theorem consLine_append (b : UInt8) {front : List Bytes} (h : front ≠ []) (rest : List Bytes) :
    consLine b (front ++ rest) = consLine b front ++ rest := by
  cases front with
  | nil => exact absurd rfl h
  | cons line others => rfl

/-- A terminated line is cut without regard to what follows it. -/
theorem fgetsFrom_append (size : Nat) (rest : Bytes) :
    ∀ (body : Bytes) (room : Nat),
      fgetsFrom size room (body ++ newline :: rest) =
        fgetsFrom size room (body ++ [newline]) ++ fgetsLines size rest := by
  intro body
  induction body with
  | nil => intro room; simp [fgetsFrom, fgetsLines]
  | cons b body ih =>
      intro room
      rw [List.cons_append, List.cons_append, fgetsFrom, fgetsFrom]
      split
      · rw [ih, List.cons_append]
      · have hne : fgetsFrom size (room - 1) (body ++ [newline]) ≠ [] := by
          intro hnil
          have hflat := congrArg List.flatten hnil
          rw [flatten_fgetsFrom] at hflat
          simp at hflat
        rw [ih, consLine_append b hne]

/-- The strings `fgets` returns are those it returns for the lines one by
one. -/
theorem fgetsLines_eq_flatMap (size : Nat) (stream : Bytes) :
    fgetsLines size stream = (lines stream).flatMap (fgetsLines size) := by
  induction stream using stream_induction with
  | nil => rfl
  | last body hne hbody => rw [lines_last hne hbody, List.flatMap_singleton]
  | line body rest hbody ih =>
      rw [lines_line rest hbody, List.flatMap_cons, ← ih]
      exact fgetsFrom_append size rest body (size - 1)

/-- A newline stands at the end of a line or nowhere. -/
def OneLine (line : Bytes) : Prop := newline ∉ line.dropLast

/-- A line with a newline in it ends with it. -/
theorem OneLine.terminated {line : Bytes} (h : OneLine line) (hnewline : newline ∈ line) :
    Terminated line := by
  rcases List.eq_nil_or_concat line with rfl | ⟨body, last, rfl⟩
  · simp at hnewline
  · rw [List.concat_eq_append] at hnewline ⊢
    rw [OneLine, List.concat_eq_append, List.dropLast_concat] at h
    have hlast : newline = last := by simpa [h] using hnewline
    exact ⟨body, h, by rw [hlast]⟩

/-- The front of a line is one. -/
theorem OneLine.of_isPrefix {front line : Bytes} (h : OneLine line) (hfront : front <+: line) :
    OneLine front := by
  obtain ⟨rest, rfl⟩ := hfront
  cases rest with
  | nil => simpa using h
  | cons b rest =>
      intro hmem
      apply h
      rw [List.dropLast_append_of_ne_nil (by simp)]
      exact List.mem_append_left _ (List.mem_of_mem_dropLast hmem)

/-- The lines of a stream have a newline at the end at most. -/
theorem oneLine_of_mem_lines {stream line : Bytes} (h : line ∈ lines stream) : OneLine line := by
  by_cases hnewline : newline ∈ line
  · obtain ⟨body, hbody, rfl⟩ := terminated_of_newline_mem h hnewline
    rwa [OneLine, List.dropLast_concat]
  · exact fun hmem => hnewline (List.mem_of_mem_dropLast hmem)

/-- The end of a line is one. -/
theorem OneLine.drop {line : Bytes} (h : OneLine line) (n : Nat) : OneLine (line.drop n) := by
  induction n generalizing line with
  | zero => exact h
  | succ n ih =>
      cases line with
      | nil => exact h
      | cons b rest =>
          rw [List.drop_succ_cons]
          apply ih
          cases rest with
          | nil => simp [OneLine]
          | cons c rest => exact fun hmem => h (List.mem_cons_of_mem b hmem)

/-- Of one line `fgets` takes as much as fits. -/
theorem takeLine_of_oneLine :
    ∀ (room : Nat) {line : Bytes}, OneLine line →
      takeLine room line = (line.take room, line.drop room) := by
  intro room
  induction room with
  | zero => intro line _; rfl
  | succ room ih =>
      intro line h
      cases line with
      | nil => rfl
      | cons b rest =>
          rw [takeLine]
          cases rest with
          | nil => cases room <;> simp [takeLine]
          | cons c rest =>
              have hb : b ≠ newline := by
                intro heq
                exact h (by simp [heq])
              have htail := ih (h.drop 1)
              rw [List.drop_succ_cons, List.drop_zero] at htail
              rw [if_neg hb, htail, List.take_succ_cons, List.drop_succ_cons]

/-- An element of a flattened map comes from one element of the list. -/
theorem exists_of_flatMap_eq {α β : Type} {f : α → List β} {x : β} {after : List β} :
    ∀ {all : List α} {before : List β}, all.flatMap f = before ++ x :: after →
      ∃ front a back b c, all = front ++ a :: back ∧ f a = b ++ x :: c ∧
        before = front.flatMap f ++ b := by
  intro all
  induction all with
  | nil => intro before h; simp at h
  | cons a all ih =>
      intro before h
      rw [List.flatMap_cons] at h
      rcases List.append_eq_append_iff.mp h with ⟨t, rfl, hrest⟩ | ⟨t, ha, hrest⟩
      · obtain ⟨front, a', back, b, c, rfl, ha', rfl⟩ := ih hrest
        exact ⟨a :: front, a', back, b, c, rfl, ha', by simp⟩
      · cases t with
        | nil =>
            have hnext : all.flatMap f = [] ++ x :: after := hrest.symm
            obtain ⟨front, a', back, b, c, rfl, ha', hb⟩ := ih hnext
            refine ⟨a :: front, a', back, b, c, rfl, ha', ?_⟩
            rw [List.flatMap_cons, List.append_assoc, ← hb, ha]
            simp
        | cons y c =>
            obtain ⟨rfl, -⟩ := List.cons.inj hrest
            exact ⟨[], a, all, before, c, rfl, ha, rfl⟩

/-- The `k`-th piece of a line that is read `room` bytes at a time. -/
def piece (room k : Nat) (line : Bytes) : Bytes := (line.drop (k * room)).take room

/-- The pieces of the rest of a line are its later pieces. -/
theorem piece_drop (room k : Nat) (line : Bytes) :
    piece room k (line.drop room) = piece room (k + 1) line := by
  rw [piece, piece, List.drop_drop, Nat.add_one_mul, Nat.add_comm]

section Pieces

variable {size : Nat} (hsize : 2 ≤ size)

include hsize in
/-- A line is returned from its first piece on. -/
theorem fgetsLines_of_oneLine {line : Bytes} (h : OneLine line) (hne : line ≠ []) :
    fgetsLines size line = piece (size - 1) 0 line :: fgetsLines size (line.drop (size - 1)) := by
  rw [fgetsLines_eq hsize, fgets, if_neg hne, takeLine_of_oneLine _ h]
  simp [piece]

include hsize in
/-- What `fgets` returns for a line are its pieces, in their order. -/
theorem piece_of_fgetsLines {p : Bytes} {after : List Bytes} :
    ∀ {before : List Bytes} {line : Bytes}, OneLine line →
      fgetsLines size line = before ++ p :: after →
      p = piece (size - 1) before.length line ∧
        before.flatten = line.take (before.length * (size - 1)) := by
  intro before
  induction before with
  | nil =>
      intro line h hread
      have hne : line ≠ [] := by
        intro hnil
        simp [hnil] at hread
      rw [fgetsLines_of_oneLine hsize h hne] at hread
      exact ⟨(List.cons.inj hread).1.symm, by simp⟩
  | cons first before ih =>
      intro line h hread
      have hne : line ≠ [] := by
        intro hnil
        simp [hnil] at hread
      rw [fgetsLines_of_oneLine hsize h hne] at hread
      obtain ⟨rfl, hrest⟩ := List.cons.inj hread
      obtain ⟨hpiece, hflat⟩ := ih (h.drop _) hrest
      rw [piece_drop] at hpiece
      refine ⟨hpiece, ?_⟩
      have hfirst : piece (size - 1) 0 line = line.take (size - 1) := by simp [piece]
      rw [List.flatten_cons, hflat, hfirst, List.length_cons, Nat.add_one_mul, Nat.add_comm,
        List.take_add]

include hsize in
/-- Every piece of a line that is not empty is returned. -/
theorem fgetsLines_of_piece :
    ∀ {k : Nat} {line : Bytes}, OneLine line → piece (size - 1) k line ≠ [] →
      ∃ before after, before.length = k ∧
        fgetsLines size line = before ++ piece (size - 1) k line :: after := by
  intro k
  induction k with
  | zero =>
      intro line h hpiece
      have hne : line ≠ [] := by
        intro hnil
        simp [hnil, piece] at hpiece
      exact ⟨[], _, rfl, fgetsLines_of_oneLine hsize h hne⟩
  | succ k ih =>
      intro line h hpiece
      have hne : line ≠ [] := by
        intro hnil
        simp [hnil, piece] at hpiece
      rw [← piece_drop] at hpiece ⊢
      obtain ⟨before, after, hlength, hread⟩ := ih (h.drop _) hpiece
      refine ⟨piece (size - 1) 0 line :: before, after, by simp [hlength], ?_⟩
      rw [fgetsLines_of_oneLine hsize h hne, hread, List.cons_append]

include hsize in
/-- Every string `fgets` returns is a piece of a line. -/
theorem exists_piece_of_mem_fgetsLines {stream p : Bytes} (h : p ∈ fgetsLines size stream) :
    ∃ line k, OneLine line ∧ p = piece (size - 1) k line := by
  rw [fgetsLines_eq_flatMap] at h
  obtain ⟨line, hline, hp⟩ := List.mem_flatMap.mp h
  obtain ⟨before, after, hsplit⟩ := List.append_of_mem hp
  have hone := oneLine_of_mem_lines hline
  exact ⟨line, before.length, hone, (piece_of_fgetsLines hsize hone hsplit).1⟩

include hsize in

/-- A piece leaves room for its terminator. -/
theorem length_le_of_mem_fgetsLines {stream p : Bytes} (h : p ∈ fgetsLines size stream) :
    p.length ≤ size - 1 := by
  obtain ⟨line, k, -, rfl⟩ := exists_piece_of_mem_fgetsLines hsize h
  exact List.length_take_le _ _

include hsize in

/-- A piece has a newline at its end at most. -/
theorem oneLine_of_mem_fgetsLines {stream p : Bytes} (h : p ∈ fgetsLines size stream) :
    OneLine p := by
  obtain ⟨line, k, hone, rfl⟩ := exists_piece_of_mem_fgetsLines hsize h
  exact (hone.drop _).of_isPrefix (List.take_prefix _ _)

end Pieces

/-! ## Numerals -/

/-- The lower-case digit for a value below 36. -/
def digit (d : Nat) : UInt8 := UInt8.ofNat (if d < 10 then 48 + d else 87 + d)

/-- The numeral of a number, most significant digit first. -/
def numeral (base n : Nat) : Bytes :=
  if n = 0 then [digit 0] else ((Nat.digits base n).map digit).reverse

/-- Zeros in front, up to a width. -/
def padded (width : Nat) (numeral : Bytes) : Bytes := numeral.leftpad width (digit 0)

/-- `%d`. -/
def decimal (n : Int) : Bytes :=
  if n < 0 then text "-" ++ numeral 10 n.natAbs else numeral 10 n.natAbs

/-- A byte string in ASCII. -/
def Ascii (bytes : Bytes) : Prop := ∀ b ∈ bytes, b < 0x80

instance (bytes : Bytes) : Decidable (Ascii bytes) := List.decidableBAll _ bytes

/-- Digits are ASCII. -/
theorem digit_lt {d : Nat} (h : d < 16) : digit d < 0x80 := by
  interval_cases d <;> decide

/-- ASCII in two parts. -/
theorem ascii_append {front rest : Bytes} (hfront : Ascii front) (hrest : Ascii rest) :
    Ascii (front ++ rest) := by
  intro b hb
  rcases List.mem_append.mp hb with h | h
  · exact hfront b h
  · exact hrest b h

/-- A numeral consists of the digits of its base. -/
theorem numeral_alphabet {base : Nat} (hbase : 1 < base) (n : Nat) :
    ∀ b ∈ numeral base n, ∃ d < base, b = digit d := by
  intro b hb
  unfold numeral at hb
  split at hb
  · exact ⟨0, by omega, List.mem_singleton.mp hb⟩
  · obtain ⟨d, hd, rfl⟩ := List.mem_map.mp (List.mem_reverse.mp hb)
    exact ⟨d, Nat.digits_lt_base hbase hd, rfl⟩

/-- Numerals are ASCII. -/
theorem ascii_numeral {base n : Nat} (hbase : 1 < base) (hle : base ≤ 16) :
    Ascii (numeral base n) := by
  intro b hb
  obtain ⟨d, hd, rfl⟩ := numeral_alphabet hbase n b hb
  exact digit_lt (lt_of_lt_of_le hd hle)

/-- So are numerals with zeros in front. -/
theorem ascii_padded {width : Nat} {digits : Bytes} (h : Ascii digits) :
    Ascii (padded width digits) := by
  refine ascii_append (fun b hb => ?_) h
  rw [(List.mem_replicate.mp hb).2]
  decide

/-- The digits of a numeral, from the last one on. -/
theorem reverse_numeral {base : Nat} (hbase : 1 < base) (n : Nat) :
    (numeral base n).reverse =
      digit (n % base) :: if n / base = 0 then [] else (numeral base (n / base)).reverse := by
  by_cases hzero : n = 0
  · simp [numeral, hzero]
  · rw [numeral, if_neg hzero, List.reverse_reverse, Nat.digits_def' hbase (by omega),
      List.map_cons]
    congr 1
    split
    · rename_i hlast
      rw [hlast, Nat.digits_zero, List.map_nil]
    · rename_i hmore
      rw [numeral, if_neg hmore, List.reverse_reverse]

/-- The value of a lower-case digit. -/
def digitOf (b : UInt8) : Nat := if b ≤ 57 then b.toNat - 48 else b.toNat - 87

/-- The number that digits stand for, the most significant one first. -/
def numeralValue (base : Nat) (digits : Bytes) : Nat :=
  digits.foldl (fun n b => base * n + digitOf b) 0

/-- The value of a digit. -/
theorem digitOf_digit : ∀ d < 36, digitOf (digit d) = d := by decide

/-- No digit is NUL. -/
theorem digit_ne_zero : ∀ d < 36, digit d ≠ 0 := by decide

/-- A numeral in its shortest form. -/
structure Canonical (base n : Nat) (digits : Bytes) : Prop where
  nonempty : digits ≠ []
  alphabet : ∀ b ∈ digits, ∃ d < base, b = digit d
  shortest : digits.head? = some (digit 0) → digits = [digit 0]
  value : numeralValue base digits = n

/-- A numeral has a digit. -/
theorem numeral_ne_nil (base n : Nat) : numeral base n ≠ [] := by
  unfold numeral
  split
  · simp
  · rename_i hzero
    simpa using Nat.digits_ne_nil_iff_ne_zero.mpr hzero

/-- A numeral stands for its number. -/
theorem numeralValue_numeral {base : Nat} (hbase : 1 < base) (hle : base ≤ 36) (n : Nat) :
    numeralValue base (numeral base n) = n := by
  induction n using Nat.strongRecOn with
  | ind n ih =>
      have hstep := congrArg List.reverse (reverse_numeral hbase n)
      rw [List.reverse_reverse, List.reverse_cons] at hstep
      have hmod : n % base < base := Nat.mod_lt n (by omega)
      have hdigit := digitOf_digit (n % base) (by omega)
      rw [hstep, numeralValue, List.foldl_append, List.foldl_cons, List.foldl_nil, hdigit]
      split
      · rename_i hlast
        have hdiv := Nat.div_add_mod n base
        rw [hlast] at hdiv
        simpa using hdiv
      · rename_i hmore
        have hpos : 0 < n := Nat.pos_of_ne_zero fun hzero => hmore (by simp [hzero])
        have hvalue := ih (n / base) (Nat.div_lt_self hpos hbase)
        rw [numeralValue] at hvalue
        rw [List.reverse_reverse, hvalue, Nat.div_add_mod]

/-- The first digit is zero in the numeral of zero only. -/
theorem numeral_shortest {base : Nat} (hbase : 1 < base) (hle : base ≤ 36) (n : Nat)
    (h : (numeral base n).head? = some (digit 0)) : numeral base n = [digit 0] := by
  unfold numeral at h ⊢
  split
  · rfl
  · rename_i hzero
    rw [if_neg hzero, List.head?_reverse, List.getLast?_map] at h
    obtain ⟨last, hlast, hdigit⟩ := Option.map_eq_some_iff.mp h
    have hne : Nat.digits base n ≠ [] := Nat.digits_ne_nil_iff_ne_zero.mpr hzero
    have hnonzero := Nat.getLast_digit_ne_zero base hzero
    rw [List.getLast?_eq_some_getLast hne, Option.some.injEq] at hlast
    have hlt := Nat.digits_lt_base hbase (hlast ▸ List.getLast_mem hne)
    have hsame := congrArg digitOf hdigit
    rw [digitOf_digit last (by omega), digitOf_digit 0 (by decide)] at hsame
    exact absurd (hlast.trans hsame) hnonzero

/-- The numeral of a number is canonical. -/
theorem canonical_numeral {base : Nat} (hbase : 1 < base) (hle : base ≤ 36) (n : Nat) :
    Canonical base n (numeral base n) where
  nonempty := numeral_ne_nil base n
  alphabet := numeral_alphabet hbase n
  shortest := numeral_shortest hbase hle n
  value := numeralValue_numeral hbase hle n

/-- A numeral has at most `k` digits exactly below the `k`-th power of the
base. -/
theorem length_numeral_le_iff (base k n : Nat) (hbase : 1 < base) (hk : 0 < k) :
    (numeral base n).length ≤ k ↔ n < base ^ k := by
  unfold numeral
  split
  · rename_i hzero
    simpa [hzero] using ⟨fun _ => Nat.pow_pos (by omega), fun _ => hk⟩
  · rw [List.length_reverse, List.length_map, Nat.digits_length_le_iff hbase]

end CText
