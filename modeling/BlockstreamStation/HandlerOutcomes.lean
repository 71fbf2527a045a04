import BlockstreamStation.CommandHandlers

/-!
# When a handler returns

For each function of the command server, the condition on its arguments and on
the system's answers under which it returns a reply; on every other input it
leaves by an exception, a failed assertion or an overrun buffer.

* `wrapReply_completes` — a reply can be dumped exactly when it is UTF-8;
* `readI2CRegister_completes`, `writeI2CRegister_completes` — the device name
  has to fit its buffer, and a read must not fail at the transfer, whose result
  `-1` prints as eight digits;
* `executeCommand_completes` — the pipe has to open and carry UTF-8;
* `readMemoryAddress_spec` — the three ways through a read of memory;
* `handleReadMemoryAddress_completes` — once the address is a string, every
  failure is answered;
* `handleCommand_completes` — the conditions put together as `Answerable`.
-/

namespace CommandServer

open CText JsonText Procedures Proc

/-! ## Replies -/

/-- `WrapReply` gives what `dump` writes, where it does not throw. -/
theorem wrapReply_yields (result : Bytes) :
    Yields (wrapReply result) (dump [(text "command", text "ACK"), (text "result", result)]) := by
  unfold wrapReply
  cases dump [(text "command", text "ACK"), (text "result", result)] with
  | some reply => exact yields_pure reply
  | none => exact yields_throwing _

/-- A result can be wrapped exactly when it is UTF-8. -/
theorem wrapReply_completes {result : Bytes} {m : Machine} :
    Completes (wrapReply result) m ↔ Utf8 result := by
  rw [(wrapReply_yields result).completes, dump_isSome]
  constructor
  · intro h
    exact (h (text "result", result) (by simp)).2
  · intro h member hmember
    simp only [List.mem_cons, List.not_mem_nil, or_false] at hmember
    rcases hmember with rfl | rfl
    · decide
    · exact ⟨show Utf8 (text "result") by decide, h⟩

/-- A wrapped reply is UTF-8. -/
theorem utf8_of_wrapReply {result reply : Bytes} {m m' : Machine}
    (h : wrapReply result m = (.returns reply, m')) : Utf8 reply :=
  utf8_dump ((wrapReply_yields result m reply m').mp h).1

/-! ## Formatted numbers -/

/-- The device name of an `int` fits its 20 bytes unless the number takes eleven
characters. -/
theorem deviceName_fits {bus : Int} (h : bus < 2 ^ 31) :
    (deviceName bus).length < 20 ↔ -1000000000 < bus := by
  have hdigits := length_numeral_le_iff 10 9 bus.natAbs (by decide) (by decide)
  have hdigits' := length_numeral_le_iff 10 10 bus.natAbs (by decide) (by decide)
  have hlength : (text "/dev/i2c-").length = 9 := rfl
  have hminus : (text "-").length = 1 := rfl
  unfold deviceName decimal
  split
  · rw [List.length_append, List.length_append, hlength, hminus]
    omega
  · rw [List.length_append, hlength]
    omega

/-- Hexadecimal digits are ASCII. -/
theorem ascii_twoHexDigits (data : Int) : Ascii (twoHexDigits data) :=
  ascii_padded (ascii_numeral (by decide) (by decide))

/-- A byte prints as two digits. -/
theorem length_twoHexDigits (byte : UInt8) : (twoHexDigits byte.toNat).length = 2 := by
  have hlt : byte.toNat < 16 ^ 2 := byte.toNat_lt
  have hmod : ((byte.toNat : Int) % 2 ^ 32).toNat = byte.toNat := by omega
  have hdigits := (length_numeral_le_iff 16 2 _ (by decide) (by decide)).mpr hlt
  rw [twoHexDigits, hmod, padded, List.length_leftpad]
  omega

/-! ## I2C registers -/

/-- A call returns; what follows it has to. -/
theorem completes_call_bind {c : SysCall} {α : Type} {q : Unit → Handler α} {m : Machine} :
    Completes (call c >>= q) m ↔ Completes (q ()) { m with calls := m.calls ++ [c] } :=
  completes_modify_bind

/-- The device name is formatted first. -/
theorem completes_deviceName_bind {bus : Int} {α : Type} {q : Bytes → Handler α} {m : Machine}
    (hbus : bus < 2 ^ 31) :
    Completes (sprintf 20 (deviceName bus) >>= q) m ↔
      -1000000000 < bus ∧ Completes (q (deviceName bus)) m := by
  rw [(yields_sprintf 20 (deviceName bus)).completes_bind, ← deviceName_fits hbus]
  by_cases h : (deviceName bus).length < 20 <;> simp [h]

/-- A machine with one more call in its log. -/
def Machine.logged (m : Machine) (c : SysCall) : Machine := { m with calls := m.calls ++ [c] }

/-- Logged calls stand behind the earlier ones. -/
theorem calls_foldl_logged (made : List SysCall) :
    ∀ m : Machine, (made.foldl Machine.logged m).calls = m.calls ++ made := by
  induction made with
  | nil => intro m; simp
  | cons c made ih =>
      intro m
      rw [List.foldl_cons, ih, Machine.logged, List.append_assoc, List.singleton_append]

/-- The same for a machine with these calls. -/
theorem calls_of_logged {m m' : Machine} (made : List SysCall)
    (hcalls : m'.calls = (made.foldl Machine.logged m).calls) : m'.calls = m.calls ++ made :=
  hcalls.trans (calls_foldl_logged made m)

/-- A read of a byte gives it, or -1 if the transfer fails. -/
theorem i2cSmbusReadByteData_eq (a : Answers) (file : DeviceFile) (command : UInt8)
    (m : Machine) :
    i2cSmbusReadByteData a file command m =
      (.returns (if a.transfer then ((m.devices file.bus file.slave command).toNat : Int) else -1),
        m.logged (.smbus .read command 0 a.transfer)) := by
  cases h : a.transfer <;>
    simp [i2cSmbusReadByteData, i2cSmbusAccess, call, bind_apply, h, Machine.logged]

/-- A write stores the byte if the transfer succeeds. -/
theorem i2cSmbusWriteByteData_eq (a : Answers) (file : DeviceFile) (command value : UInt8)
    (m : Machine) :
    i2cSmbusWriteByteData a file command value m =
      (.returns (if a.transfer then 0 else -1),
        if a.transfer then
          (m.logged (.smbus .write command value true)).store file.bus file.slave command value
        else m.logged (.smbus .write command value false)) := by
  cases h : a.transfer <;>
    simp [i2cSmbusWriteByteData, i2cSmbusAccess, call, bind_apply, h, Machine.logged]

/-- The result buffer holds a byte that was read, and not the `-1` of a failed
transfer. -/
theorem completes_read_result {a : Answers} {file : DeviceFile} {command : UInt8}
    {m : Machine} :
    Completes (do
      let data ← i2cSmbusReadByteData a file command
      let result ← sprintf 3 (twoHexDigits data)
      call .closeFile
      wrapReply result) m ↔ a.transfer = true := by
  rw [Completes, bind_of_returns (i2cSmbusReadByteData_eq a file command m)]
  change Completes _ _ ↔ _
  rw [(yields_sprintf 3 _).completes_bind]
  cases a.transfer with
  | false =>
      have hlong : ¬ (twoHexDigits (-1)).length < 3 := by decide
      simp [hlong]
  | true =>
      have hfits : (twoHexDigits (m.devices file.bus file.slave command).toNat).length < 3 := by
        rw [length_twoHexDigits]
        decide
      simp only [if_true, if_pos hfits, iff_true]
      refine ⟨_, rfl, completes_call_bind.mpr (wrapReply_completes.mpr ?_)⟩
      exact utf8_of_ascii (ascii_twoHexDigits _)

/-- A read returns unless the device name overruns its buffer or the transfer
itself fails. -/
theorem readI2CRegister_completes {a : Answers} {bus address reg : Int} {m : Machine}
    (hbus : bus < 2 ^ 31) :
    Completes (readI2CRegister a bus address reg) m ↔
      -1000000000 < bus ∧ (a.openDevice = true → a.setSlave = true → a.transfer = true) := by
  have herror : ∀ m, Completes (wrapReply (text "Error")) m :=
    fun m => wrapReply_completes.mpr (by decide)
  rw [readI2CRegister, completes_deviceName_bind hbus]
  apply and_congr_right'
  rw [completes_call_bind]
  cases a.openDevice with
  | false => simpa using herror _
  | true =>
      rw [if_pos rfl, completes_call_bind]
      cases a.setSlave with
      | false => simpa using completes_call_bind.mpr (herror _)
      | true => simpa using completes_read_result

/-- A write returns unless the device name overruns its buffer. -/
theorem writeI2CRegister_completes {a : Answers} {bus address reg value : Int} {m : Machine}
    (hbus : bus < 2 ^ 31) :
    Completes (writeI2CRegister a bus address reg value) m ↔ -1000000000 < bus := by
  rw [writeI2CRegister, completes_deviceName_bind hbus, and_iff_left_iff_imp]
  intro _
  rw [completes_call_bind]
  cases a.openDevice with
  | false => exact completes_pure () _
  | true =>
      rw [if_pos rfl, completes_call_bind]
      cases a.setSlave with
      | false => exact completes_modify _ _
      | true =>
          rw [if_pos rfl, Completes, bind_of_returns (i2cSmbusWriteByteData_eq _ _ _ _ _)]
          change Completes _ _
          split
          · exact completes_modify _ _
          · exact completes_modify _ _

/-! ## Shell commands -/

/-- A newline at the end makes no difference to UTF-8. -/
theorem utf8_snoc_newline {front : Bytes} : Utf8 (front ++ [newline]) ↔ Utf8 front := by
  unfold Utf8
  rw [decodeAll_append, decodeAll_cons, decodeAll_nil]
  constructor
  · intro h
    by_contra hne
    rw [decode_of_lt hne (by decide)] at h
    cases h
  · intro h
    rw [h]
    rfl

/-- So it can be dropped. -/
theorem utf8_dropNewline {result : Bytes} : Utf8 (dropNewline result) ↔ Utf8 result := by
  unfold dropNewline
  split
  · rename_i hlast
    have hsplit := List.dropLast_append_getLast? newline hlast
    rw [← utf8_snoc_newline, hsplit]
  · rfl

/-- A shell command's output can be gathered exactly when the pipe opens and
what is gathered is UTF-8. -/
def ShellAnswers (a : Answers) : Prop :=
  ∃ output, a.shell = some output ∧ Utf8 (gather output)

/-- When `ExecuteCommand` returns, it has wrapped what was gathered. -/
theorem executeCommand_returns {a : Answers} {command reply : Bytes} {m m' : Machine}
    (h : executeCommand a command m = (.returns reply, m')) :
    ∃ output m₁ m₂, a.shell = some output ∧
      wrapReply (dropNewline (gather output)) m₁ = (.returns reply, m₂) := by
  obtain ⟨_, m₁, -, hscope⟩ := returns_bind.mp h
  obtain ⟨m₂, hbody, hclose⟩ := returns_ensuring.mp hscope
  cases hshell : a.shell with
  | none => simp [hshell, pclose, bind_apply, call] at hclose
  | some output =>
      rw [hshell] at hbody
      exact ⟨output, m₁, m₂, rfl, hbody⟩

/-- A command returns exactly when its pipe opens and carries UTF-8. -/
theorem executeCommand_completes {a : Answers} {command : Bytes} {m : Machine} :
    Completes (executeCommand a command) m ↔ ShellAnswers a := by
  constructor
  · intro hparts
    obtain ⟨reply, m', h⟩ := hparts
    obtain ⟨output, m₁, m₂, hshell, hbody⟩ := executeCommand_returns h
    have hutf8 := wrapReply_completes.mp ⟨reply, m₂, hbody⟩
    exact ⟨output, hshell, utf8_dropNewline.mp hutf8⟩
  · intro hparts
    obtain ⟨output, hshell, hutf8⟩ := hparts
    have hbody : Completes (wrapReply (dropNewline (gather output)))
        (m.logged (.popen command true)) :=
      wrapReply_completes.mpr (utf8_dropNewline.mpr hutf8)
    obtain ⟨reply, m', hreply⟩ := hbody
    refine ⟨reply, m'.logged .pclose,
      returns_bind.mpr ⟨(), m.logged (.popen command true), ?_, ?_⟩⟩
    · simp [call, hshell, Machine.logged]
    · refine returns_ensuring.mpr ⟨m', ?_, ?_⟩
      · simpa [hshell] using hreply
      · simp [hshell, pclose, bind_apply, call, Machine.logged]

/-- The reply of a usage command is wrapped a second time, which never fails. -/
theorem usage_completes {a : Answers} {command : Bytes} {m : Machine} :
    Completes (executeCommand a command >>= wrapReply) m ↔ ShellAnswers a := by
  rw [← executeCommand_completes, completes_bind]
  constructor
  · intro hparts
    obtain ⟨reply, m', h, -⟩ := hparts
    exact ⟨reply, m', h⟩
  · intro hparts
    obtain ⟨reply, m', h⟩ := hparts
    obtain ⟨output, m₁, m₂, -, hbody⟩ := executeCommand_returns h
    exact ⟨reply, m', h, wrapReply_completes.mpr (utf8_of_wrapReply hbody)⟩

/-! ## Physical memory -/

/-- `stoull` returns or throws. -/
theorem stoull_cases (str : Bytes) :
    (∃ n, stoull str = (pure n : Handler Nat)) ∨
      ∃ e, stoull str = (throwing e : Handler Nat) := by
  unfold stoull
  dsimp only
  split_ifs
  · exact .inr ⟨_, rfl⟩
  · exact .inr ⟨_, rfl⟩
  · exact .inl ⟨_, rfl⟩
  · exact .inl ⟨_, rfl⟩

/-- `page_start`. -/
def pageStart (p : Platform) (address : BitVec p.pointerBits) : BitVec p.pointerBits :=
  address &&& ~~~(BitVec.ofNat p.pointerBits p.pageSize - 1)

/-- `offset`. -/
def pageOffset (p : Platform) (address : BitVec p.pointerBits) : BitVec p.pointerBits :=
  address - pageStart p address

section ReadMemory

variable (p : Platform) (a : Answers) (address : BitVec p.pointerBits) (m : Machine)

/-- The three ways through `readMemoryAddress`, with the calls on each. -/
theorem readMemoryAddress_spec :
    ∃ m', (a.openMem = false ∧
        m'.calls = m.calls ++ [SysCall.openFile (text "/dev/mem") false] ∧
        readMemoryAddress p a address m =
          (.throws (.runtimeError (text "Failed to open /dev/mem")), m')) ∨
      (a.openMem = true ∧ a.mapPage = false ∧
        m'.calls = m.calls ++ [SysCall.openFile (text "/dev/mem") true,
          .mmap (pageStart p address).toNat false, .closeFile] ∧
        readMemoryAddress p a address m =
          (.throws (.runtimeError (text "Failed to mmap")), m')) ∨
      a.openMem = true ∧ a.mapPage = true ∧
        m'.calls = m.calls ++ [SysCall.openFile (text "/dev/mem") true,
          .mmap (pageStart p address).toNat true, .munmap, .closeFile] ∧
        readMemoryAddress p a address m = (.returns
          (a.memory ((pageStart p address).toNat + (pageOffset p address).toNat)), m') := by
  unfold readMemoryAddress
  cases a.openMem with
  | false => exact ⟨_, .inl ⟨rfl, rfl, rfl⟩⟩
  | true =>
      cases a.mapPage with
      | false =>
          refine ⟨_, .inr (.inl ⟨rfl, rfl, ?_, rfl⟩)⟩
          exact calls_of_logged [.openFile _ true, .mmap _ false, .closeFile] rfl
      | true =>
          refine ⟨_, .inr (.inr ⟨rfl, rfl, ?_, rfl⟩)⟩
          exact calls_of_logged [.openFile _ true, .mmap _ true, .munmap, .closeFile] rfl

/-- Reading memory returns a byte or throws a `runtime_error` with an ASCII
text. -/
theorem readMemoryAddress_cases :
    (∃ value m', readMemoryAddress p a address m = (.returns value, m')) ∨
      ∃ what m', readMemoryAddress p a address m = (.throws (.runtimeError what), m') ∧
        Ascii what := by
  obtain ⟨m', ⟨-, -, h⟩ | ⟨-, -, -, h⟩ | ⟨-, -, -, h⟩⟩ := readMemoryAddress_spec p a address m
  · exact .inr ⟨_, m', h, by decide⟩
  · exact .inr ⟨_, m', h, by decide⟩
  · exact .inl ⟨_, m', h⟩

end ReadMemory

/-- ASCII can always be wrapped. -/
theorem wrapReply_ascii {result : Bytes} (h : Ascii result) (m : Machine) :
    ∃ reply, wrapReply result m = (.returns reply, m) := by
  obtain ⟨reply, m', hreply⟩ := wrapReply_completes.mpr (utf8_of_ascii h)
  obtain ⟨-, rfl⟩ := (wrapReply_yields result m reply m').mp hreply
  exact ⟨reply, hreply⟩

/-- What is done with an address that was converted. -/
def readConverted (p : Platform) (a : Answers) (address : Nat) : Handler Bytes :=
  catching
    (do
      let value ← readMemoryAddress p a (BitVec.ofNat p.pointerBits address)
      let value_str ← sprintf 4 (twoHexDigits value.toNat)
      wrapReply value_str)
    fun
      | .runtimeError what => some (wrapReply (text "Error: " ++ what))
      | _ => none

/-- Whatever the address is and memory does, there is a reply, and no call but
those of `readMemoryAddress`. -/
theorem readConverted_returns (p : Platform) (a : Answers) (address : Nat) (m : Machine) :
    ∃ reply, readConverted p a address m =
      (.returns reply, (readMemoryAddress p a (BitVec.ofNat p.pointerBits address) m).2) := by
  rcases readMemoryAddress_cases p a (BitVec.ofNat p.pointerBits address) m with
    ⟨value, m', h⟩ | ⟨what, m', h, hwhat⟩
  · have hfits : (twoHexDigits value.toNat).length < 4 := by
      rw [length_twoHexDigits]
      decide
    obtain ⟨reply, hreply⟩ := wrapReply_ascii (ascii_twoHexDigits value.toNat) m'
    refine ⟨reply, ?_⟩
    rw [readConverted, catching, bind_of_returns h, bind_of_returns (sprintf_apply hfits m'),
      hreply, h]
  · obtain ⟨reply, hreply⟩ :=
      wrapReply_ascii (ascii_append (show Ascii (text "Error: ") by decide) hwhat) m'
    refine ⟨reply, ?_⟩
    rw [readConverted, catching, bind_apply, h]
    exact hreply

/-- The branch of `read_memory_address` returns exactly if the address is a string, or
missing. -/
theorem handleReadMemoryAddress_completes {p : Platform} {a : Answers} {j : Json}
    {m : Machine} :
    Completes (handleReadMemoryAddress p a j) m ↔
      (j.member? Json.string? (text "address") []).isSome := by
  rw [handleReadMemoryAddress, (valueString_yields j (text "address") []).completes_bind,
    Option.isSome_iff_exists]
  refine exists_congr fun address_str => and_iff_left_of_imp fun _ => ?_
  split
  · exact wrapReply_completes.mpr (by decide)
  · have herror : Completes (wrapReply (text "Error converting address")) m :=
      wrapReply_completes.mpr (by decide)
    rcases stoull_cases address_str with ⟨n, h⟩ | ⟨e, h⟩
    · rw [h]
      obtain ⟨reply, hreply⟩ := readConverted_returns p a n m
      exact ⟨reply, _, hreply⟩
    · rw [h]
      exact herror

/-! ## Commands -/

/-- The command of a request, where reading it returns. -/
def command? (command_json : Json) : Option Bytes :=
  command_json.member? Json.string? (text "command") []

/-- The parameter under a key, where reading it returns. -/
def parameter? (command_json : Json) (key : Bytes) : Option Int :=
  (command_json.members?.bind (·.lookup (text "parameters"))).bind
    fun parameters => parameters.member? Json.int? key (-1)

/-- Reading a parameter gives it, where that returns. -/
theorem parameter_yields (command_json : Json) (key : Bytes) :
    Yields (parameter command_json key) (parameter? command_json key) :=
  yields_bind (at_yields command_json (text "parameters")) fun parameters =>
    valueInt_yields parameters key (-1)

/-- It is an `int`. -/
theorem parameter?_range {command_json : Json} {key : Bytes} {n : Int}
    (h : parameter? command_json key = some n) : -2 ^ 31 ≤ n ∧ n < 2 ^ 31 := by
  obtain ⟨parameters, -, hmember⟩ := Option.bind_eq_some_iff.mp h
  obtain ⟨members, -, hlookup⟩ := Option.bind_eq_some_iff.mp hmember
  cases hmem : members.lookup key with
  | none =>
      simp only [hmem, Option.some.injEq] at hlookup
      omega
  | some member =>
      simp only [hmem] at hlookup
      exact int?_range hlookup

/-- The requests `read_i2c_register` that are answered: the parameters can be
read, and when they are accepted the device name fits and the transfer does not
fail on an open device. -/
def ReadAnswerable (a : Answers) (command_json : Json) : Prop :=
  ∃ bus address reg,
    parameter? command_json (text "bus") = some bus ∧
    parameter? command_json (text "address") = some address ∧
    parameter? command_json (text "reg") = some reg ∧
    (¬ (bus = -1 ∨ address = -1 ∨ reg = -1) →
      -1000000000 < bus ∧ (a.openDevice = true → a.setSlave = true → a.transfer = true))

/-- The requests `write_i2c_register` that are answered: the parameters can be
read, and when they are accepted the device name fits. -/
def WriteAnswerable (command_json : Json) : Prop :=
  ∃ bus address reg value,
    parameter? command_json (text "bus") = some bus ∧
    parameter? command_json (text "address") = some address ∧
    parameter? command_json (text "reg") = some reg ∧
    parameter? command_json (text "val") = some value ∧
    (¬ (bus = -1 ∨ address = -1 ∨ reg = -1 ∨ value = -1) → -1000000000 < bus)

/-- The branch of `read_i2c_register` returns exactly under its condition. -/
theorem handleReadI2CRegister_completes {a : Answers} {j : Json} {m : Machine} :
    Completes (handleReadI2CRegister a j) m ↔ ReadAnswerable a j := by
  unfold handleReadI2CRegister ReadAnswerable
  rw [(parameter_yields j (text "bus")).completes_bind]
  refine exists_congr fun bus => ?_
  rw [(parameter_yields j (text "address")).completes_bind, ← exists_and_left]
  refine exists_congr fun address => ?_
  rw [(parameter_yields j (text "reg")).completes_bind, ← exists_and_left, ← exists_and_left]
  refine exists_congr fun reg => and_congr_right fun hbus => and_congr_right fun _ =>
    and_congr_right fun _ => ?_
  split
  · rename_i hinvalid
    exact iff_of_true (wrapReply_completes.mpr (by decide)) fun h => absurd hinvalid h
  · rename_i hvalid
    rw [readI2CRegister_completes (parameter?_range hbus).2]
    exact ⟨fun h _ => h, fun h => h hvalid⟩

/-- So does the branch of `write_i2c_register`. -/
theorem handleWriteI2CRegister_completes {a : Answers} {j : Json} {m : Machine} :
    Completes (handleWriteI2CRegister a j) m ↔ WriteAnswerable j := by
  unfold handleWriteI2CRegister WriteAnswerable
  rw [(parameter_yields j (text "bus")).completes_bind]
  refine exists_congr fun bus => ?_
  rw [(parameter_yields j (text "address")).completes_bind, ← exists_and_left]
  refine exists_congr fun address => ?_
  rw [(parameter_yields j (text "reg")).completes_bind, ← exists_and_left, ← exists_and_left]
  refine exists_congr fun reg => ?_
  rw [(parameter_yields j (text "val")).completes_bind, ← exists_and_left, ← exists_and_left,
    ← exists_and_left]
  refine exists_congr fun value => and_congr_right fun hbus => and_congr_right fun _ =>
    and_congr_right fun _ => and_congr_right fun _ => ?_
  split
  · rename_i hinvalid
    exact iff_of_true (wrapReply_completes.mpr (by decide)) fun h => absurd hinvalid h
  · rename_i hvalid
    have hwrite : Completes (writeI2CRegister a bus address reg value) m ↔ -1000000000 < bus :=
      writeI2CRegister_completes (parameter?_range hbus).2
    rw [completes_bind]
    constructor
    · intro hparts _
      obtain ⟨_, m', hreturns, -⟩ := hparts
      exact hwrite.mp ⟨_, m', hreturns⟩
    · intro h
      obtain ⟨_, m', hreturns⟩ := hwrite.mpr (h hvalid)
      exact ⟨_, m', hreturns, wrapReply_completes.mpr (by decide)⟩

/-- The condition a command puts on its request and on the system's answers. -/
def CommandAnswerable (a : Answers) (command_json : Json) (command : Bytes) : Prop :=
  if command = text "read_i2c_register" then ReadAnswerable a command_json
  else if command = text "write_i2c_register" then WriteAnswerable command_json
  else if command = text "read_disk_usage" ∨ command = text "read_memory_usage" then
    ShellAnswers a
  else if command = text "read_memory_address" then
    (command_json.member? Json.string? (text "address") []).isSome = true
  else True

/-- The requests on which `HandleCommand` returns. -/
def Answerable (a : Answers) (command_json : Json) : Prop :=
  ∃ command, command? command_json = some command ∧
    CommandAnswerable a command_json command

/-- `HandleCommand` returns exactly on the answerable requests. -/
theorem handleCommand_completes {p : Platform} {a : Answers} {j : Json} {m : Machine} :
    Completes (handleCommand p a j) m ↔ Answerable a j := by
  rw [handleCommand, (valueString_yields j (text "command") []).completes_bind]
  refine exists_congr fun command => and_congr_right fun _ => ?_
  unfold CommandAnswerable
  split
  · rename_i h
    subst h
    exact iff_of_true (wrapReply_completes.mpr (by decide)) (by simp [text])
  split
  · exact handleReadI2CRegister_completes
  split
  · exact handleWriteI2CRegister_completes
  split
  · rename_i h
    rw [if_pos (.inl h)]
    exact usage_completes
  split
  · rename_i h
    rw [if_pos (.inr h)]
    exact usage_completes
  rename_i hdisk hmemory
  rw [if_neg (not_or.mpr ⟨hdisk, hmemory⟩)]
  split
  · exact handleReadMemoryAddress_completes
  · exact iff_of_true (wrapReply_completes.mpr (by decide)) trivial

end CommandServer
