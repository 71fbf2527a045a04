import BlockstreamStation.LabelledRuns
import BlockstreamStation.ServerRun

/-!
# Every resource of a request is released once

The handlers of the command server open device files, map memory and start
shell commands.  The log of their calls is read as a ledger: a call that
succeeds in acquiring a resource adds it to those held, a release takes one
away, and a release of something that is not held makes the ledger wrong.

* `readMemoryAddress_leaves`, `executeCommand_leaves`, `readI2CRegister_leaves`,
  `writeI2CRegister_leaves` — on every way out that the language defines,
  exceptions included, each handler has released what it acquired;
* `respond_defined` — the requests on which no handler leaves the defined
  language: a pipe that was not opened is closed all the same, and an overrun
  buffer comes before the `close`;
* `resources_balanced_iff` — so the ledger is balanced all along a run exactly
  when every request of the run is one of these.
-/

namespace CommandServer

open CText JsonText Procedures Proc LabelledRuns

/-! ## The ledger -/

/-- What a call can acquire. -/
inductive Resource where
  | file
  | mapping
  | pipe
deriving DecidableEq

/-- The resource a call has acquired, if it succeeded. -/
def SysCall.acquired : SysCall → Option Resource
  | .openFile _ true => some .file
  | .mmap _ true => some .mapping
  | .popen _ true => some .pipe
  | _ => none

/-- The resource a call releases. -/
def SysCall.released : SysCall → Option Resource
  | .closeFile => some .file
  | .munmap => some .mapping
  | .pclose => some .pipe
  | _ => none

/-- The resources held after a call; `none` when it releases one that is not
held. -/
def track (held : List Resource) (c : SysCall) : Option (List Resource) :=
  match c.acquired with
  | some resource => some (resource :: held)
  | none =>
      match c.released with
      | some resource => if resource ∈ held then some (held.erase resource) else none
      | none => some held

/-- Every resource acquired is released once, and no other is released. -/
def Balanced (calls : List SysCall) : Prop := calls.foldlM track [] = some []

instance (calls : List SysCall) : Decidable (Balanced calls) :=
  inferInstanceAs (Decidable (calls.foldlM track [] = some []))

/-- Two balanced lists of calls, one behind the other, are balanced. -/
theorem balanced_append {front back : List SysCall} (hfront : Balanced front)
    (hback : Balanced back) : Balanced (front ++ back) := by
  unfold Balanced at hfront hback ⊢
  rw [List.foldlM_append, hfront]
  exact hback

/-- The calls made in between are balanced. -/
def Settled (m m' : Machine) : Prop := ∃ made, m'.calls = m.calls ++ made ∧ Balanced made

/-- Nothing was acquired where no call was made. -/
theorem settled_refl (m : Machine) : Settled m m := ⟨[], by simp, rfl⟩

/-- What is settled in two stretches is settled. -/
theorem settled_trans (m₁ m₂ m₃ : Machine) (h₁ : Settled m₁ m₂) (h₂ : Settled m₂ m₃) :
    Settled m₁ m₃ := by
  obtain ⟨front, hfront, hbalanced⟩ := h₁
  obtain ⟨back, hback, hbalanced'⟩ := h₂
  exact ⟨front ++ back, by rw [hback, hfront, List.append_assoc],
    balanced_append hbalanced hbalanced'⟩

/-- A machine that has logged a balanced list of calls, one after the other. -/
theorem settled_of_logged {m m' : Machine} (made : List SysCall)
    (hcalls : m'.calls = (made.foldl Machine.logged m).calls) (hbalanced : Balanced made) :
    Settled m m' :=
  ⟨made, calls_of_logged made hcalls, hbalanced⟩

/-- A procedure that leaves the machine alone, on every way out. -/
theorem leaves_of_same {α : Type} {p : Handler α} (h : ∀ m, (p m).2 = m) : Leaves Settled p :=
  fun m _ => (h m).symm ▸ settled_refl m

/-! ## Replies and parameters -/

/-- Wrapping returns or throws, and makes no call. -/
theorem wrapReply_cases (result : Bytes) (m : Machine) :
    (∃ reply, wrapReply result m = (.returns reply, m)) ∨
      ∃ e, wrapReply result m = (.throws e, m) := by
  unfold wrapReply
  cases dump [(text "command", text "ACK"), (text "result", result)] with
  | some reply => exact .inl ⟨reply, rfl⟩
  | none => exact .inr ⟨_, rfl⟩

/-- `WrapReply` makes no call. -/
theorem wrapReply_same (result : Bytes) (m : Machine) : (wrapReply result m).2 = m := by
  rcases wrapReply_cases result m with ⟨_, h⟩ | ⟨_, h⟩ <;> rw [h]

/-- It may throw, but it is defined. -/
theorem wrapReply_defined (result : Bytes) (m : Machine) : Defined (wrapReply result) m := by
  rcases wrapReply_cases result m with ⟨_, h⟩ | ⟨_, h⟩ <;> simp [Defined, h]

/-- So it leaves the machine settled. -/
theorem wrapReply_leaves (result : Bytes) : Leaves Settled (wrapReply result) :=
  leaves_of_same (wrapReply_same result)

/-- What follows a call runs where the call is logged. -/
theorem call_bind {α : Type} (c : SysCall) (q : Unit → Handler α) (m : Machine) :
    (call c >>= q) m = q () (m.logged c) := rfl

/-! ## The four handlers -/

/-- Reading memory releases what it acquired whether it returns or throws. -/
theorem readMemoryAddress_leaves (p : Platform) (a : Answers)
    (address : BitVec p.pointerBits) : Leaves Settled (readMemoryAddress p a address) := by
  intro m _
  obtain ⟨m', ⟨-, hcalls, h⟩ | ⟨-, -, hcalls, h⟩ | ⟨-, -, hcalls, h⟩⟩ :=
    readMemoryAddress_spec p a address m
  · exact h ▸ ⟨_, hcalls, rfl⟩
  · exact h ▸ ⟨_, hcalls, rfl⟩
  · exact h ▸ ⟨_, hcalls, rfl⟩

/-- The shared pointer closes a pipe that was opened, also when the reply throws,
and one that was not. -/
theorem executeCommand_defined {a : Answers} {command : Bytes} {m : Machine} :
    Defined (executeCommand a command) m ↔ a.shell.isSome := by
  unfold executeCommand
  cases a.shell with
  | none => simp [Defined, ensuring, pclose, bind_apply, call, andThen]
  | some output =>
      simp only [Option.isSome_some, iff_true]
      refine defined_bind.mpr ⟨defined_modify _ _, fun _ m' _ => ?_⟩
      refine defined_ensuring.mpr ⟨wrapReply_defined _ _, fun _ => ?_⟩
      simp [Defined, pclose, bind_apply, call]

/-- Where it is defined, `ExecuteCommand` closes the pipe it opened, also when wrapping
throws. -/
theorem executeCommand_leaves (a : Answers) (command : Bytes) :
    Leaves Settled (executeCommand a command) := by
  intro m hdefined
  have hsome := executeCommand_defined.mp hdefined
  unfold executeCommand
  cases hshell : a.shell with
  | none => simp [hshell] at hsome
  | some output =>
      rw [call_bind, ensuring]
      rcases wrapReply_cases (dropNewline (gather output)) (m.logged (.popen command true)) with
        ⟨_, h⟩ | ⟨_, h⟩
      · simp only [Option.isSome_some, h]
        exact settled_of_logged [.popen command true, .pclose] rfl rfl
      · simp only [Option.isSome_some, h]
        exact settled_of_logged [.popen command true, .pclose] rfl rfl

/-- So do the two usage commands. -/
theorem usage_leaves (a : Answers) (command : Bytes) :
    Leaves Settled (executeCommand a command >>= wrapReply) :=
  leaves_bind settled_trans (executeCommand_leaves a command) wrapReply_leaves

/-- They are defined exactly if the pipe opens. -/
theorem usage_defined {a : Answers} {command : Bytes} {m : Machine} :
    Defined (executeCommand a command >>= wrapReply) m ↔ a.shell.isSome := by
  rw [defined_bind, executeCommand_defined]
  exact and_iff_left_of_imp fun _ reply m' _ => wrapReply_defined reply m'

/-- The device name is formatted first, into a buffer it has to fit. -/
theorem defined_deviceName_bind {bus : Int} {α : Type} {q : Bytes → Handler α} {m : Machine} :
    Defined (sprintf 20 (deviceName bus) >>= q) m ↔
      (deviceName bus).length < 20 ∧ Defined (q (deviceName bus)) m := by
  rw [(yields_sprintf 20 (deviceName bus)).defined_bind, defined_sprintf]
  apply and_congr_right
  intro hfits
  rw [if_pos hfits]
  exact ⟨fun h => h _ rfl, fun h name hname => Option.some.inj hname ▸ h⟩

/-- A call is defined; what follows it has to be. -/
theorem defined_call_bind {c : SysCall} {α : Type} {q : Unit → Handler α} {m : Machine} :
    Defined (call c >>= q) m ↔ Defined (q ()) (m.logged c) := Iff.rfl

/-- The result buffer holds a byte that was read, and not the `-1` of a failed
transfer. -/
theorem readI2CRegister_defined {a : Answers} {bus address reg : Int} {m : Machine} :
    Defined (readI2CRegister a bus address reg) m ↔
      (deviceName bus).length < 20 ∧
        (a.openDevice = true → a.setSlave = true → a.transfer = true) := by
  rw [readI2CRegister, defined_deviceName_bind, defined_call_bind]
  apply and_congr_right'
  cases a.openDevice with
  | false => simp [wrapReply_defined]
  | true =>
      rw [if_pos rfl, defined_call_bind]
      cases a.setSlave with
      | false => simpa using defined_call_bind.mpr (wrapReply_defined _ _)
      | true =>
          rw [if_pos rfl, Defined, bind_of_returns (i2cSmbusReadByteData_eq _ _ _ _)]
          change Defined _ _ ↔ _
          rw [(yields_sprintf 3 _).defined_bind, defined_sprintf]
          cases a.transfer with
          | false =>
              have hlong : ¬ (twoHexDigits (-1)).length < 3 := by decide
              simp [hlong]
          | true =>
              simp only [if_true, length_twoHexDigits, forall_const, iff_true]
              exact ⟨by decide, fun result _ => defined_call_bind.mpr (wrapReply_defined _ _)⟩

/-- A read that stays inside its buffers releases its file. -/
theorem readI2CRegister_leaves (a : Answers) (bus address reg : Int) :
    Leaves Settled (readI2CRegister a bus address reg) := by
  intro m hdefined
  obtain ⟨hfits, htransfer⟩ := readI2CRegister_defined.mp hdefined
  rw [readI2CRegister, bind_of_returns (sprintf_apply hfits m), call_bind]
  cases hopen : a.openDevice with
  | false =>
      rw [if_neg (by simp), wrapReply_same]
      exact settled_of_logged [.openFile _ false] rfl rfl
  | true =>
      rw [if_pos rfl, call_bind]
      cases hslave : a.setSlave with
      | false =>
          rw [if_neg (by simp), call_bind, wrapReply_same]
          exact settled_of_logged [.openFile _ true, .setSlave _ false, .closeFile] rfl rfl
      | true =>
          rw [if_pos rfl, bind_of_returns (i2cSmbusReadByteData_eq _ _ _ _),
            htransfer hopen hslave, if_pos rfl,
            bind_of_returns (sprintf_apply (by rw [length_twoHexDigits]; decide) _), call_bind,
            wrapReply_same]
          exact settled_of_logged
            [.openFile _ true, .setSlave _ true, .smbus .read _ _ true, .closeFile] rfl rfl

/-- Writing is defined exactly if the device name fits its buffer. -/
theorem writeI2CRegister_defined {a : Answers} {bus address reg value : Int} {m : Machine} :
    Defined (writeI2CRegister a bus address reg value) m ↔ (deviceName bus).length < 20 := by
  rw [writeI2CRegister, defined_deviceName_bind, and_iff_left_iff_imp, defined_call_bind]
  intro _
  cases a.openDevice with
  | false => simp
  | true =>
      rw [if_pos rfl, defined_call_bind]
      cases a.setSlave with
      | false => exact defined_modify _ _
      | true =>
          rw [if_pos rfl, Defined, bind_of_returns (i2cSmbusWriteByteData_eq _ _ _ _ _)]
          change Defined _ _
          split
          · exact defined_modify _ _
          · exact defined_modify _ _

/-- A write that stays inside its buffer releases its file. -/
theorem writeI2CRegister_leaves (a : Answers) (bus address reg value : Int) :
    Leaves Settled (writeI2CRegister a bus address reg value) := by
  intro m hdefined
  have hfits := writeI2CRegister_defined.mp hdefined
  rw [writeI2CRegister, bind_of_returns (sprintf_apply hfits m), call_bind]
  cases a.openDevice with
  | false => exact settled_of_logged [.openFile _ false] rfl rfl
  | true =>
      rw [if_pos rfl, call_bind]
      cases a.setSlave with
      | false => exact settled_of_logged [.openFile _ true, .setSlave _ false, .closeFile] rfl rfl
      | true =>
          rw [if_pos rfl, bind_of_returns (i2cSmbusWriteByteData_eq _ _ _ _ _)]
          cases a.transfer with
          | false =>
              exact settled_of_logged
                [.openFile _ true, .setSlave _ true, .smbus .write _ _ false, .closeFile] rfl rfl
          | true =>
              exact settled_of_logged
                [.openFile _ true, .setSlave _ true, .smbus .write _ _ true, .closeFile] rfl rfl

/-! ## Members of the request -/

/-- Reading a string member makes no call. -/
theorem valueString_same (j : Json) (key default_value : Bytes) (m : Machine) :
    ((j.valueString key default_value : Handler Bytes) m).2 = m := by
  cases j with
  | object members =>
      simp only [Json.valueString]
      cases members.lookup key with
      | some member => cases member <;> rfl
      | none => rfl
  | _ => rfl

/-- It is always defined. -/
theorem valueString_defined (j : Json) (key default_value : Bytes) (m : Machine) :
    Defined (j.valueString key default_value : Handler Bytes) m := by
  cases j with
  | object members =>
      simp only [Json.valueString]
      cases members.lookup key with
      | some member => cases member <;> simp [Json.getString]
      | none => simp
  | _ => simp [Json.valueString]

/-- The parameter is a floating point number that is no `int`. -/
def ParameterOverflows (command_json : Json) (key : Bytes) : Prop :=
  ∃ parameters x,
    command_json.members?.bind (·.lookup (text "parameters")) = some (.object parameters) ∧
      parameters.lookup key = some (.numberFloat x) ∧ ¬ FitsInt x

/-- Reading an `int` member makes no call. -/
theorem valueInt_same (j : Json) (key : Bytes) (default_value : Int) (m : Machine) :
    ((j.valueInt key default_value : Handler Int) m).2 = m := by
  cases j with
  | object members =>
      simp only [Json.valueInt]
      cases members.lookup key with
      | some member =>
          cases member with
          | numberFloat x =>
              simp only [Json.getInt]
              split <;> rfl
          | _ => rfl
      | none => rfl
  | _ => rfl

/-- It is undefined exactly for a floating point number that no `int` holds. -/
theorem valueInt_defined {j : Json} {key : Bytes} {default_value : Int} {m : Machine} :
    Defined (j.valueInt key default_value : Handler Int) m ↔
      ¬ ∃ parameters x, j = .object parameters ∧
        parameters.lookup key = some (.numberFloat x) ∧ ¬ FitsInt x := by
  cases j with
  | object members =>
      simp only [Json.valueInt, Json.object.injEq, exists_and_left, exists_eq_left']
      cases members.lookup key with
      | some member =>
          cases member with
          | numberFloat x => by_cases hfits : FitsInt x <;> simp [Json.getInt, hfits]
          | _ => simp [Json.getInt]
      | none => simp
  | _ => simp [Json.valueInt]

/-- Reading a parameter makes no call. -/
theorem parameter_leaves (j : Json) (key : Bytes) : Leaves Settled (parameter j key) := by
  apply leaves_bind settled_trans
  · apply leaves_of_same
    intro m
    cases j with
    | object members =>
        simp only [Json.at]
        cases members.lookup (text "parameters") <;> rfl
    | _ => rfl
  · exact fun parameters => leaves_of_same (valueInt_same parameters key (-1))

/-- It is undefined exactly if the parameter overflows. -/
theorem parameter_defined {j : Json} {key : Bytes} {m : Machine} :
    Defined (parameter j key) m ↔ ¬ ParameterOverflows j key := by
  have hat : Defined (j.at (text "parameters") : Handler Json) m := by
    cases j with
    | object members =>
        simp only [Json.at]
        cases members.lookup (text "parameters") <;> simp
    | _ => simp [Json.at]
  rw [parameter, (at_yields j (text "parameters")).defined_bind, and_iff_right hat]
  simp only [valueInt_defined, ParameterOverflows]
  constructor
  · intro h hparts
    obtain ⟨parameters, x, hparameters, hmember, hfits⟩ := hparts
    exact h _ hparameters ⟨parameters, x, rfl, hmember, hfits⟩
  · intro h value hvalue hparts
    obtain ⟨parameters, x, rfl, hmember, hfits⟩ := hparts
    exact h ⟨parameters, x, hvalue, hmember, hfits⟩

/-! ## Commands -/

/-- The requests `read_i2c_register` that stay in the defined language.  The
parameters are read in this order, and an unreadable one ends the request by an
exception. -/
def ReadDefined (a : Answers) (j : Json) : Prop :=
  ¬ ParameterOverflows j (text "bus") ∧
    ∀ bus, parameter? j (text "bus") = some bus →
  ¬ ParameterOverflows j (text "address") ∧
    ∀ address, parameter? j (text "address") = some address →
  ¬ ParameterOverflows j (text "reg") ∧
    ∀ reg, parameter? j (text "reg") = some reg →
  ¬ (bus = -1 ∨ address = -1 ∨ reg = -1) →
    -1000000000 < bus ∧ (a.openDevice = true → a.setSlave = true → a.transfer = true)

/-- The same for `write_i2c_register`. -/
def WriteDefined (j : Json) : Prop :=
  ¬ ParameterOverflows j (text "bus") ∧
    ∀ bus, parameter? j (text "bus") = some bus →
  ¬ ParameterOverflows j (text "address") ∧
    ∀ address, parameter? j (text "address") = some address →
  ¬ ParameterOverflows j (text "reg") ∧
    ∀ reg, parameter? j (text "reg") = some reg →
  ¬ ParameterOverflows j (text "val") ∧
    ∀ value, parameter? j (text "val") = some value →
  ¬ (bus = -1 ∨ address = -1 ∨ reg = -1 ∨ value = -1) → -1000000000 < bus

/-- A parameter is read before what follows. -/
theorem defined_parameter_bind {j : Json} {key : Bytes} {α : Type} {q : Int → Handler α}
    {m : Machine} {P : Int → Prop}
    (h : ∀ n, parameter? j key = some n → (Defined (q n) m ↔ P n)) :
    Defined (parameter j key >>= q) m ↔
      ¬ ParameterOverflows j key ∧ ∀ n, parameter? j key = some n → P n := by
  rw [(parameter_yields j key).defined_bind, parameter_defined]
  exact and_congr_right' (forall_congr' fun n => forall_congr' fun hn => h n hn)

/-- The branch of `read_i2c_register` is defined under the condition on its request. -/
theorem handleReadI2CRegister_defined {a : Answers} {j : Json} {m : Machine} :
    Defined (handleReadI2CRegister a j) m ↔ ReadDefined a j := by
  unfold handleReadI2CRegister ReadDefined
  refine defined_parameter_bind fun bus hbus => ?_
  refine defined_parameter_bind fun address _ => ?_
  refine defined_parameter_bind fun reg _ => ?_
  split
  · rename_i hinvalid
    exact iff_of_true (wrapReply_defined _ _) fun h => absurd hinvalid h
  · rename_i hvalid
    rw [readI2CRegister_defined, deviceName_fits (parameter?_range hbus).2]
    exact ⟨fun h _ => h, fun h => h hvalid⟩

/-- So is the branch of `write_i2c_register`. -/
theorem handleWriteI2CRegister_defined {a : Answers} {j : Json} {m : Machine} :
    Defined (handleWriteI2CRegister a j) m ↔ WriteDefined j := by
  unfold handleWriteI2CRegister WriteDefined
  refine defined_parameter_bind fun bus hbus => ?_
  refine defined_parameter_bind fun address _ => ?_
  refine defined_parameter_bind fun reg _ => ?_
  refine defined_parameter_bind fun value _ => ?_
  split
  · rename_i hinvalid
    exact iff_of_true (wrapReply_defined _ _) fun h => absurd hinvalid h
  · rename_i hvalid
    rw [defined_bind, writeI2CRegister_defined, deviceName_fits (parameter?_range hbus).2,
      and_iff_left fun _ m' _ => wrapReply_defined _ m']
    exact ⟨fun h _ => h, fun h => h hvalid⟩

/-- The branch of `read_i2c_register` closes what it opened. -/
theorem handleReadI2CRegister_leaves (a : Answers) (j : Json) :
    Leaves Settled (handleReadI2CRegister a j) := by
  refine leaves_bind settled_trans (parameter_leaves j _) fun bus => ?_
  refine leaves_bind settled_trans (parameter_leaves j _) fun address => ?_
  refine leaves_bind settled_trans (parameter_leaves j _) fun reg => ?_
  exact leaves_ite (wrapReply_leaves _) (readI2CRegister_leaves a bus address reg)

/-- So does the branch of `write_i2c_register`. -/
theorem handleWriteI2CRegister_leaves (a : Answers) (j : Json) :
    Leaves Settled (handleWriteI2CRegister a j) := by
  refine leaves_bind settled_trans (parameter_leaves j _) fun bus => ?_
  refine leaves_bind settled_trans (parameter_leaves j _) fun address => ?_
  refine leaves_bind settled_trans (parameter_leaves j _) fun reg => ?_
  refine leaves_bind settled_trans (parameter_leaves j _) fun value => ?_
  apply leaves_ite (wrapReply_leaves _)
  exact leaves_bind settled_trans (writeI2CRegister_leaves a bus address reg value)
    fun _ => wrapReply_leaves _

/-- The conversion of the address makes no call and stays defined. -/
theorem converted_cases (address_str : Bytes) (m : Machine) :
    ∃ converted, catching (do return some (← stoull address_str))
      (fun _ => some (pure none)) m = (.returns converted, m) := by
  rcases stoull_cases address_str with ⟨n, h⟩ | ⟨e, h⟩
  · exact ⟨some n, by rw [h]; rfl⟩
  · exact ⟨none, by rw [h]; rfl⟩

/-- A read of memory inside the `try` closes what it opened, whether it is caught or not.
-/
theorem readConverted_leaves (p : Platform) (a : Answers) (address : Nat) :
    Leaves Settled (readConverted p a address) := by
  intro m _
  obtain ⟨reply, h⟩ := readConverted_returns p a address m
  rw [h]
  apply readMemoryAddress_leaves p a
  rcases readMemoryAddress_cases p a (BitVec.ofNat p.pointerBits address) m with
    ⟨value, m', h⟩ | ⟨what, m', h, -⟩
  · exact defined_of_returns h
  · simp [Defined, h]

/-- So does the whole branch of `read_memory_address`. -/
theorem handleReadMemoryAddress_leaves (p : Platform) (a : Answers) (j : Json) :
    Leaves Settled (handleReadMemoryAddress p a j) := by
  apply leaves_bind settled_trans (leaves_of_same (valueString_same j _ _))
  intro address_str
  apply leaves_ite (wrapReply_leaves _)
  apply leaves_bind settled_trans
  · apply leaves_of_same
    intro m
    obtain ⟨converted, h⟩ := converted_cases address_str m
    rw [h]
  · intro converted
    cases converted with
    | none => exact wrapReply_leaves _
    | some address => exact readConverted_leaves p a address

/-- That branch is always defined. -/
theorem handleReadMemoryAddress_defined (p : Platform) (a : Answers) (j : Json) (m : Machine) :
    Defined (handleReadMemoryAddress p a j) m := by
  refine defined_bind.mpr ⟨valueString_defined j _ _ m, fun address_str m' _ => ?_⟩
  split
  · exact wrapReply_defined _ _
  · obtain ⟨converted, h⟩ := converted_cases address_str m'
    refine defined_bind.mpr ⟨defined_of_returns h, fun converted' m'' _ => ?_⟩
    cases converted' with
    | none => exact wrapReply_defined _ _
    | some address =>
        obtain ⟨reply, hreply⟩ := readConverted_returns p a address m''
        exact defined_of_returns hreply

/-- The condition a command puts on its request and on the system's answers. -/
def CommandDefined (a : Answers) (j : Json) (command : Bytes) : Prop :=
  if command = text "read_i2c_register" then ReadDefined a j
  else if command = text "write_i2c_register" then WriteDefined j
  else if command = text "read_disk_usage" ∨ command = text "read_memory_usage" then
    a.shell.isSome = true
  else True

/-- The requests on which `HandleCommand` stays in the defined language. -/
def RequestDefined (a : Answers) (j : Json) : Prop :=
  ∀ command, command? j = some command → CommandDefined a j command

/-- Every command closes what it opened. -/
theorem handleCommand_leaves (p : Platform) (a : Answers) (j : Json) :
    Leaves Settled (handleCommand p a j) := by
  apply leaves_bind settled_trans (leaves_of_same (valueString_same j _ _))
  intro command
  apply leaves_ite (wrapReply_leaves _)
  apply leaves_ite (handleReadI2CRegister_leaves a j)
  apply leaves_ite (handleWriteI2CRegister_leaves a j)
  apply leaves_ite (usage_leaves a _)
  apply leaves_ite (usage_leaves a _)
  exact leaves_ite (handleReadMemoryAddress_leaves p a j) (wrapReply_leaves _)

/-- A command is defined exactly under the condition of its branch. -/
theorem handleCommand_defined {p : Platform} {a : Answers} {j : Json} {m : Machine} :
    Defined (handleCommand p a j) m ↔ RequestDefined a j := by
  rw [handleCommand, (valueString_yields j (text "command") []).defined_bind,
    and_iff_right (valueString_defined j _ _ m)]
  refine forall_congr' fun command => forall_congr' fun _ => ?_
  unfold CommandDefined
  split
  · rename_i h
    subst h
    exact iff_of_true (wrapReply_defined _ _) (by simp [text])
  split
  · exact handleReadI2CRegister_defined
  split
  · exact handleWriteI2CRegister_defined
  split
  · rename_i h
    rw [if_pos (.inl h)]
    exact usage_defined
  split
  · rename_i h
    rw [if_pos (.inr h)]
    exact usage_defined
  rename_i hdisk hmemory
  rw [if_neg (not_or.mpr ⟨hdisk, hmemory⟩)]
  split
  · exact iff_of_true (handleReadMemoryAddress_defined p a j m) trivial
  · exact iff_of_true (wrapReply_defined _ _) trivial

/-! ## Runs -/

section Runs

variable {parse : Bytes → Option Json} {p : Platform}

/-- What arrives is no message, or one whose handling stays in the defined
language. -/
def ArrivalDefined (parse : Bytes → Option Json) : Arrival → Prop
  | .failure => True
  | .message bytes a => ∀ j, parse bytes = some j → RequestDefined a j

/-- Parsing makes no call. -/
theorem parseMessage_same (message : Bytes) (m : Machine) :
    (parseMessage parse message m).2 = m := by
  unfold parseMessage
  cases parse message <;> rfl

/-- Answering a message closes what it opened. -/
theorem respond_leaves (a : Answers) (message : Bytes) :
    Leaves Settled (respond parse p a message) :=
  leaves_bind settled_trans (leaves_of_same (parseMessage_same message))
    fun j => handleCommand_leaves p a j

/-- It is defined exactly if the request it parses to is. -/
theorem respond_defined {a : Answers} {message : Bytes} {m : Machine} :
    Defined (respond parse p a message) m ↔ ArrivalDefined parse (.message message a) := by
  have hparse : Defined (parseMessage parse message) m := by
    unfold parseMessage
    cases parse message <;> simp
  rw [respond, (parseMessage_yields message).defined_bind, and_iff_right hparse]
  exact forall_congr' fun j => forall_congr' fun _ => handleCommand_defined

/-- Between two messages the ledger of a run is balanced, and nothing undefined
has happened. -/
def Accounted (s : Server) : Prop := s.status ≠ .undefined ∧ Balanced s.machine.calls

/-- A defined arrival keeps the account of the resources. -/
theorem serve_accounted {s : Server} (hs : Accounted s) {arrival : Arrival}
    (h : ArrivalDefined parse arrival) : Accounted (serve parse p s arrival) := by
  cases arrival with
  | failure => exact hs
  | message bytes a =>
      have hdefined : Defined (respond parse p a bytes) s.machine := respond_defined.mpr h
      obtain ⟨made, hcalls, hmade⟩ := respond_leaves (p := p) a bytes s.machine hdefined
      have hbalanced := balanced_append hs.2 hmade
      rw [← hcalls] at hbalanced
      rcases hrespond : respond parse p a bytes s.machine with ⟨_ | _ | _ | _, m⟩
      case returns response =>
        rw [hrespond] at hbalanced
        rw [serve, hrespond]
        exact ⟨hs.1, hbalanced⟩
      case undefined => exact absurd (congrArg Prod.fst hrespond) hdefined
      all_goals
        rw [hrespond] at hbalanced
        rw [serve, hrespond]
        exact ⟨by simp, hbalanced⟩

/-- An arrival that is not defined ends the run. -/
theorem serve_undefined {s : Server} {arrival : Arrival} (h : ¬ ArrivalDefined parse arrival) :
    (serve parse p s arrival).status = .undefined := by
  cases arrival with
  | failure => exact absurd trivial h
  | message bytes a =>
      have hundefined : (respond parse p a bytes s.machine).1 = .undefined := by
        by_contra hdefined
        exact h (respond_defined.mp hdefined)
      rcases hrespond : respond parse p a bytes s.machine with ⟨_ | _ | _ | _, m⟩
      case undefined => rw [serve, hrespond]
      all_goals simp [hrespond] at hundefined

end Runs

/-- **Resource balance, exactly.**  All along a run every resource acquired is
released once before the next message and nothing else is released, if and only
if every message that is handled stays in the defined language: a shell command
can be started, an accepted bus number fits the device name, and a read on an
open device does not fail. -/
theorem resources_balanced_iff (parse : Bytes → Option Json) (p : Platform)
    (devices : Int → Int → UInt8 → UInt8) (arrivals : List Arrival) :
    Always (serveStep parse p) Accounted (start ⟨devices, []⟩) arrivals ↔
      Guarded (serveStep parse p) (fun _ arrival => ArrivalDefined parse arrival)
        (start ⟨devices, []⟩) arrivals := by
  have hserve : ∀ s arrival s', serveStep parse p s arrival = some s' →
      s' = serve parse p s arrival := by
    intro s arrival s' hstep
    obtain ⟨-, hs'⟩ := Option.ite_none_right_eq_some.mp hstep
    exact (Option.some.inj hs').symm
  apply always_iff_guarded (A := fun _ => True) (I := Accounted)
  · exact fun s hs => hs
  · intro s arrival s' _ hs hstep hguard
    rw [hserve s arrival s' hstep]
    exact serve_accounted hs hguard
  · intro s arrival s' _ _ hstep hguard haccounted
    rw [hserve s arrival s' hstep] at haccounted
    exact haccounted.1 (serve_undefined hguard)
  · exact ⟨by simp [start], rfl⟩
  · exact fun _ _ => trivial

/-- A parser that knows the request for the memory usage. -/
def parseUsageRequest (message : Bytes) : Option Json :=
  if message = text "\x7b\"command\":\"read_memory_usage\"\x7d" then
    some (.object [(text "command", .string (text "read_memory_usage"))])
  else none

/-- Where `popen` fails, a pipe is closed that was never opened. -/
theorem unopened_pipe_is_closed :
    ¬ Always (serveStep parseUsageRequest ⟨64, 4096⟩) Accounted (start ⟨fun _ _ _ => 0, []⟩)
      [.message (text "\x7b\"command\":\"read_memory_usage\"\x7d")
        { willing with shell := none }] := by
  intro halways
  have hcalls : (serve parseUsageRequest ⟨64, 4096⟩ (start ⟨fun _ _ _ => 0, []⟩)
      (.message (text "\x7b\"command\":\"read_memory_usage\"\x7d")
        { willing with shell := none })).machine.calls =
      [.popen (text "free -m") false, .pclose] := by
    decide
  have hbalanced := (halways _ [] _ (List.append_nil _).symm rfl).2
  rw [hcalls] at hbalanced
  revert hbalanced
  decide

end CommandServer
