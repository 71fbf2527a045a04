import BlockstreamStation.ResourceBalance

/-!
# Replies to the usage commands

`ExecuteCommand` wraps what the shell printed into a reply, and so do
`ReadDiskUsage` and `ReadMemoryUsage` with what they get from it: the text
arrives inside an envelope that is itself the result of an envelope.

* `gather_of_no_nul` — the `fgets` loop puts the printed text together again;
* `executeCommandWith` — the command with any function that wraps what it printed;
* `usage_wrapped_twice` — what the two commands reply;
* `usage_never_single` — no text arrives as the result of one envelope;
* `parseReply_of_dump` — a parser for replies, which undoes the escapes that
  `dump` writes.
-/

namespace CommandServer

open CText JsonText Procedures Proc

/-! ## The printed text -/

/-- Pieces without a NUL are put together as they are. -/
theorem gather_of_no_nul {output : Bytes} (h : 0 ∉ output) : gather output = output := by
  have hpieces : ∀ piece ∈ fgetsLines 128 output, cstr piece = piece := by
    intro piece hpiece
    apply cstr_eq_self
    intro hnul
    apply h
    rw [← flatten_fgetsLines 128 output]
    exact List.mem_flatten.mpr ⟨piece, hpiece, hnul⟩
  rw [gather, List.map_congr_left hpieces, List.map_id', flatten_fgetsLines]

/-- `ExecuteCommand` with a function in the place of `WrapReply`. -/
def executeCommandWith (wrap : Bytes → Handler Bytes) (a : Answers) (command : Bytes) :
    Handler Bytes := do
  call (.popen command a.shell.isSome)
  Proc.ensuring
    (match a.shell with
    | none => pure (text "Error executing command")
    | some output => wrap (dropNewline (gather output)))
    (pclose a.shell.isSome)

/-- `ExecuteCommand` is the function with `WrapReply`. -/
theorem executeCommand_eq_with : executeCommand = executeCommandWith wrapReply := rfl

/-- A text without the newline at its end, if it has one there. -/
def WithoutNewline (printed passed : Bytes) : Prop :=
  printed = passed ++ [newline] ∨ printed = passed ∧ printed.getLast? ≠ some newline

/-- What is wrapped of a text is the text without its last newline. -/
theorem dropNewline_eq {printed passed : Bytes} (h : WithoutNewline printed passed) :
    dropNewline printed = passed := by
  rcases h with rfl | ⟨rfl, hlast⟩
  · rw [dropNewline, if_pos List.getLast?_concat, List.dropLast_concat]
  · exact if_neg hlast

/-- **The whole output is passed on.**  Whatever text without NULs the command
prints, and wherever `fgets` cuts it, the string that is wrapped is the text
without the newline at its end.  Any function in the place of `WrapReply` gets that
string. -/
theorem whole_output_passed (a : Answers) (command printed passed : Bytes)
    (hshell : a.shell = some printed) (hnul : 0 ∉ printed)
    (hpassed : WithoutNewline printed passed) :
    executeCommand = executeCommandWith wrapReply ∧
      ∀ wrap, executeCommandWith wrap a command =
        call (.popen command true) >>= fun _ => ensuring (wrap passed) (pclose true) := by
  refine ⟨executeCommand_eq_with, fun wrap => ?_⟩
  have hgathered : dropNewline (gather printed) = passed := by
    rw [gather_of_no_nul hnul, dropNewline_eq hpassed]
  rw [executeCommandWith, hshell, ← hgathered]
  rfl

/-- A line of 127 bytes fills the buffer and leaves its newline to the next call;
of the two newlines the second is dropped. -/
theorem whole_output_passed_across_buffer :
    (fgetsLines 128 (List.replicate 127 120 ++ [newline, newline])).length = 3 ∧
      executeCommandWith wrapReply
          { willing with shell := some (List.replicate 127 120 ++ [newline, newline]) }
          (text "free -m") =
        call (.popen (text "free -m") true) >>= fun _ =>
          ensuring (wrapReply (List.replicate 127 120 ++ [newline])) (pclose true) :=
  ⟨by decide +kernel, (whole_output_passed
    { willing with shell := some (List.replicate 127 120 ++ [newline, newline]) } (text "free -m")
    (List.replicate 127 120 ++ [newline, newline]) (List.replicate 127 120 ++ [newline])
    rfl (by decide) (.inl rfl)).2 wrapReply⟩

/-- At most one byte is dropped. -/
theorem length_le_dropNewline (result : Bytes) :
    result.length ≤ (dropNewline result).length + 1 := by
  unfold dropNewline
  split
  · rw [List.length_dropLast]
    omega
  · omega

/-! ## Two envelopes -/

/-- The two commands that report usage. -/
inductive UsageCommand where
  | disk
  | memory
deriving DecidableEq

namespace UsageCommand

def name : UsageCommand → Bytes
  | .disk => text "read_disk_usage"
  | .memory => text "read_memory_usage"

/-- The command line that is run. -/
def shellCommand : UsageCommand → Bytes
  | .disk => text "df -h --output=source,size,used,avail,pcent,target"
  | .memory => text "free -m"

end UsageCommand

section Usage

variable {p : Platform} {a : Answers} {j : Json} {m : Machine} {c : UsageCommand}

/-- A usage command goes to its branch. -/
theorem handleCommand_usage (hcommand : command? j = some c.name) :
    handleCommand p a j m = (executeCommand a c.shellCommand >>= wrapReply) m := by
  have hread := fun command h =>
    (valueString_yields j (text "command") [] m command m).mpr ⟨h, rfl⟩
  cases c with
  | disk =>
      have hvalue := hread (text "read_disk_usage") hcommand
      rw [handleCommand, bind_of_returns hvalue, if_neg (by decide), if_neg (by decide),
        if_neg (by decide), if_pos rfl]
      rfl
  | memory =>
      have hvalue := hread (text "read_memory_usage") hcommand
      rw [handleCommand, bind_of_returns hvalue, if_neg (by decide), if_neg (by decide),
        if_neg (by decide), if_neg (by decide), if_pos rfl]
      rfl

/-- What a usage command replies, whatever the shell does: the envelope of the envelope
of the text that was gathered. -/
theorem usage_returns {reply : Bytes} {m' : Machine} (hcommand : command? j = some c.name)
    (hreturns : handleCommand p a j m = (.returns reply, m')) :
    ∃ output inner, a.shell = some output ∧
      dump [(text "command", text "ACK"), (text "result", dropNewline (gather output))] =
        some inner ∧
      dump [(text "command", text "ACK"), (text "result", inner)] = some reply := by
  rw [handleCommand_usage hcommand] at hreturns
  obtain ⟨inner, m₁, hinner, houter⟩ := returns_bind.mp hreturns
  obtain ⟨output, m₂, m₃, hshell, hwrap⟩ := executeCommand_returns hinner
  exact ⟨output, inner, hshell, ((wrapReply_yields _ m₂ inner m₃).mp hwrap).1,
    ((wrapReply_yields _ m₁ reply m').mp houter).1⟩

/-- What a usage command replies to a text without NULs: the envelope of the
envelope of the text. -/
theorem usage_wrapped_twice {output : Bytes} (hcommand : command? j = some c.name)
    (hshell : a.shell = some output) (hnul : 0 ∉ output) (hutf8 : Utf8 output) :
    ∃ inner reply m',
      dump [(text "command", text "ACK"), (text "result", dropNewline output)] = some inner ∧
        dump [(text "command", text "ACK"), (text "result", inner)] = some reply ∧
        handleCommand p a j m = (.returns reply, m') := by
  have hgather := gather_of_no_nul hnul
  have hcompletes : Completes (executeCommand a c.shellCommand >>= wrapReply) m :=
    usage_completes.mpr ⟨output, hshell, by rwa [hgather]⟩
  obtain ⟨reply, m', hreply⟩ := hcompletes
  rw [← handleCommand_usage (p := p) hcommand] at hreply
  obtain ⟨printed, inner, hprinted, hinner, houter⟩ := usage_returns hcommand hreply
  obtain rfl := Option.some.inj (hprinted.symm.trans hshell)
  rw [hgather] at hinner
  exact ⟨inner, reply, m', hinner, houter, hreply⟩

end Usage

/-! ## An envelope is longer than its text -/

/-- Every byte is written as one at least. -/
theorem length_escape_pos (b : UInt8) : 1 ≤ (escape b).length := by
  unfold escape
  split_ifs
  iterate 7 (focus decide)
  · rw [List.length_append]
    exact Nat.le_trans (by decide) (Nat.le_add_right _ _)
  · exact Nat.le_refl 1

/-- So a text does not get shorter. -/
theorem length_le_dumpEscaped (bytes : Bytes) :
    ∀ state out, dumpEscaped state bytes = some out → bytes.length ≤ out.length := by
  induction bytes with
  | nil => intro state out _; exact Nat.zero_le _
  | cons b rest ih =>
      intro state out h
      rw [dumpEscaped, Option.ite_none_left_eq_some, Option.map_eq_some_iff] at h
      obtain ⟨-, tail, htail, rfl⟩ := h
      have hrest := ih _ _ htail
      have hfirst := length_escape_pos b
      rw [List.length_cons, List.length_append]
      omega

/-- The reply to a result, written out. -/
theorem dump_reply {result reply : Bytes}
    (h : dump [(text "command", text "ACK"), (text "result", result)] = some reply) :
    ∃ escaped, dumpEscaped .accept result = some escaped ∧
      reply = text "\x7b\"command\":\"ACK\",\"result\":\"" ++ escaped ++ text "\"\x7d" := by
  cases hescaped : dumpEscaped .accept result with
  | none => simp [dump, dumpMembers, dumpMember, hescaped] at h
  | some escaped =>
      have hcommand : dumpEscaped .accept (text "command") = some (text "command") := rfl
      have hack : dumpEscaped .accept (text "ACK") = some (text "ACK") := rfl
      have hresult : dumpEscaped .accept (text "result") = some (text "result") := rfl
      simp only [dump, dumpMembers, dumpMember, hcommand, hack, hresult, hescaped,
        Option.bind_eq_bind, Option.bind_some, Option.pure_def, Option.some.injEq,
        List.append_assoc] at h
      refine ⟨escaped, rfl, ?_⟩
      rw [← h, List.append_assoc]
      rfl

/-- A reply is longer than its result. -/
theorem length_lt_dump_reply {result reply : Bytes}
    (h : dump [(text "command", text "ACK"), (text "result", result)] = some reply) :
    result.length + 2 ≤ reply.length := by
  obtain ⟨escaped, hescaped, rfl⟩ := dump_reply h
  have hlength := length_le_dumpEscaped result _ _ hescaped
  have hclosing : (text "\"\x7d").length = 2 := rfl
  rw [List.length_append, List.length_append, hclosing]
  omega

/-! ## One envelope -/

/-- What is relied on of the parser: a reply that `dump` wrote parses to the
object it was written for. -/
def ParsesReplies (parse : Bytes → Option Json) : Prop :=
  ∀ result reply, dump [(text "command", text "ACK"), (text "result", result)] = some reply →
    parse reply = some (.object [(text "command", .string (text "ACK")),
      (text "result", .string result)])

/-- A reply that parses to one envelope around the printed text, up to one
newline at its end. -/
def SingleEnvelope (parse : Bytes → Option Json) (reply output : Bytes) : Prop :=
  ∃ members, parse reply = some (.object members) ∧
    members.lookup (text "command") = some (.string (text "ACK")) ∧
    ∃ result, members.lookup (text "result") = some (.string result) ∧
      (result = output ∨ result ++ [newline] = output)

/-- **No single envelope.**  Whatever text without NULs the shell prints, the
reply to a usage command does not have it as its result: the result is another
envelope, which is longer than the text. -/
theorem usage_never_single (parse : Bytes → Option Json) (hparse : ParsesReplies parse)
    (p : Platform) (a : Answers) (j : Json) (m : Machine) (c : UsageCommand) (output : Bytes)
    (hcommand : command? j = some c.name) (hshell : a.shell = some output) (hnul : 0 ∉ output)
    (hutf8 : Utf8 output) :
    ¬ ∃ reply m', handleCommand p a j m = (.returns reply, m') ∧
      SingleEnvelope parse reply output := by
  intro h
  obtain ⟨reply, m', hreturns, members, hmembers, -, result, hresult, hsame⟩ := h
  obtain ⟨inner, twice, m'', hinner, htwice, hruns⟩ :=
    usage_wrapped_twice hcommand hshell hnul hutf8
  obtain rfl : twice = reply := by
    have houtcome := (Prod.mk.inj (hruns.symm.trans hreturns)).1
    exact Outcome.returns.inj houtcome
  rw [hparse inner twice htwice, Option.some.injEq, Json.object.injEq] at hmembers
  obtain rfl : inner = result := by
    rw [← hmembers] at hresult
    exact Json.string.inj (Option.some.inj hresult)
  have hlonger := length_lt_dump_reply hinner
  have hprinted := length_le_dropNewline output
  rcases hsame with rfl | rfl
  · omega
  · rw [List.length_append, List.length_singleton] at hprinted
    omega

/-! ## Parsing a reply -/

/-- The byte that a letter behind a backslash stands for. -/
def escaped (letter : UInt8) : UInt8 :=
  if letter = 98 then 0x08
  else if letter = 116 then 0x09
  else if letter = 110 then 0x0A
  else if letter = 102 then 0x0C
  else if letter = 114 then 0x0D
  else letter

/-- A string without its escapes. -/
def unescape : Bytes → Bytes
  | 92 :: 117 :: _ :: _ :: high :: low :: rest =>
      UInt8.ofNat (16 * digitValue high + digitValue low) :: unescape rest
  | 92 :: letter :: rest => escaped letter :: unescape rest
  | b :: rest => b :: unescape rest
  | [] => []

/-- The parser on replies: the opening, the escaped result and the closing. -/
def parseReply (reply : Bytes) : Option Json :=
  let opening := text "\x7b\"command\":\"ACK\",\"result\":\""
  if opening <+: reply then
    some (.object [(text "command", .string (text "ACK")),
      (text "result", .string (unescape ((reply.drop opening.length).rdrop 2)))])
  else none

/-- The value of a hexadecimal digit. -/
theorem digitValue_digit : ∀ d < 16, digitValue (digit d) = d := by decide

/-- A control character has two digits behind two zeros. -/
theorem padded_control : ∀ n < 32,
    padded 4 (numeral 16 n) = [48, 48, digit (n / 16), digit (n % 16)] := by decide +kernel

/-- What is no backslash stands for itself. -/
theorem unescape_cons {b : UInt8} (h : b ≠ 92) (rest : Bytes) :
    unescape (b :: rest) = b :: unescape rest := by
  rw [unescape.eq_def]
  split <;> simp_all

/-- An escaped byte is read back. -/
theorem unescape_escape (b : UInt8) (rest : Bytes) :
    unescape (escape b ++ rest) = b :: unescape rest := by
  unfold escape
  split_ifs with h₁ h₂ h₃ h₄ h₅ h₆ h₇ h₈
  · rw [h₁]; rfl
  · rw [h₂]; rfl
  · rw [h₃]; rfl
  · rw [h₄]; rfl
  · rw [h₅]; rfl
  · rw [h₆]; rfl
  · rw [h₇]; rfl
  · have hlt : b.toNat < 32 := by
      have hle : b.toNat ≤ 31 := h₈
      omega
    rw [padded_control b.toNat hlt]
    change UInt8.ofNat (16 * digitValue (digit (b.toNat / 16)) +
      digitValue (digit (b.toNat % 16))) :: unescape rest = _
    rw [digitValue_digit _ (by omega), digitValue_digit _ (by omega), Nat.div_add_mod,
      UInt8.ofNat_toNat]
  · exact unescape_cons h₇ rest

/-- The escapes that `dump` writes are undone. -/
theorem unescape_dumpEscaped (bytes : Bytes) :
    ∀ state out, dumpEscaped state bytes = some out → unescape out = bytes := by
  induction bytes with
  | nil =>
      intro state out h
      rw [dumpEscaped, Option.ite_none_right_eq_some] at h
      rw [← Option.some.inj h.2]
      rfl
  | cons b rest ih =>
      intro state out h
      rw [dumpEscaped, Option.ite_none_left_eq_some, Option.map_eq_some_iff] at h
      obtain ⟨-, tail, htail, rfl⟩ := h
      rw [unescape_escape, ih _ _ htail]

/-- The parser gives back what `dump` wrote. -/
theorem parseReply_of_dump : ParsesReplies parseReply := by
  intro result reply h
  obtain ⟨written, hwritten, rfl⟩ := dump_reply h
  have hbetween : (written ++ text "\"\x7d").rdrop 2 = written := by
    rw [List.rdrop, List.take_left']
    rw [List.length_append]
    rfl
  rw [parseReply, if_pos ⟨_, (List.append_assoc _ _ _).symm⟩, List.append_assoc, List.drop_left,
    hbetween, unescape_dumpEscaped _ _ _ hwritten]

/-- A system whose shell prints one line. -/
def printsLine : Answers := { willing with shell := some (text "Mem: 512\n") }

def askMemoryUsage : Json := .object [(text "command", .string (text "read_memory_usage"))]

/-- The line inside two envelopes is not the result of one. -/
theorem usage_not_single_on_line :
    ¬ ∃ reply m', handleCommand ⟨32, 4096⟩ printsLine askMemoryUsage zeroMachine =
        (.returns reply, m') ∧ SingleEnvelope parseReply reply (text "Mem: 512\n") :=
  usage_never_single parseReply parseReply_of_dump ⟨32, 4096⟩ printsLine askMemoryUsage zeroMachine
    .memory (text "Mem: 512\n") rfl rfl (by decide) (by decide)

/-- On that line the result of the reply is the text of an envelope. -/
theorem usage_result_is_envelope :
    ∃ reply m', handleCommand ⟨32, 4096⟩ printsLine askMemoryUsage zeroMachine =
        (.returns reply, m') ∧
      parseReply reply = some (.object [(text "command", .string (text "ACK")),
        (text "result", .string (text "\x7b\"command\":\"ACK\",\"result\":\"Mem: 512\"\x7d"))]) ∧
      ¬ SingleEnvelope parseReply reply (text "Mem: 512\n") := by
  have hshell : printsLine.shell = some (text "Mem: 512\n") := rfl
  have hcommand : command? askMemoryUsage = some UsageCommand.memory.name := rfl
  obtain ⟨inner, reply, m', hinner, hreply, hruns⟩ :=
    usage_wrapped_twice (p := ⟨32, 4096⟩) (m := zeroMachine) hcommand hshell (by decide) (by decide)
  have hwritten : dump [(text "command", text "ACK"),
      (text "result", dropNewline (text "Mem: 512\n"))] =
        some (text "\x7b\"command\":\"ACK\",\"result\":\"Mem: 512\"\x7d") := rfl
  obtain rfl := Option.some.inj (hinner.symm.trans hwritten)
  have hparsed := parseReply_of_dump _ reply hreply
  refine ⟨reply, m', hruns, hparsed, fun h => ?_⟩
  obtain ⟨members, hmembers, -, result, hresult, hsame⟩ := h
  rw [hparsed, Option.some.injEq, Json.object.injEq] at hmembers
  rw [← hmembers] at hresult
  obtain rfl := Json.string.inj (Option.some.inj hresult)
  revert hsame
  decide

end CommandServer
