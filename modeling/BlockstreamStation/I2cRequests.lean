import BlockstreamStation.I2cWrites
import BlockstreamStation.ResourceBalance

/-!
# I2C requests from JSON to the bus

`HandleCommand` reads the parameters of an I2C request with a default of -1 and
refuses the request when one of them is -1; the others go to the bus, each
narrowed to an `int` on the way and register and value once more to a byte.

* `handleCommand_of_request` — one equation for both commands: a request whose
  parameters can be read is refused or carried out;
* `perform_moves` — the calls of a request that is carried out;
* `validation_iff` — which malformed requests are refused as such;
* `numbers_carried_iff` — which integers reach the bus as they are.
-/

namespace CommandServer

open CText JsonText Procedures Proc

/-! ## Refused or carried out -/

/-- The two I2C commands. -/
inductive I2cCommand where
  | read
  | write
deriving DecidableEq

namespace I2cCommand

def name : I2cCommand → Bytes
  | .read => text "read_i2c_register"
  | .write => text "write_i2c_register"

/-- The parameters a command reads, in this order. -/
def parameters : I2cCommand → List Bytes
  | .read => [text "bus", text "address", text "reg"]
  | .write => [text "bus", text "address", text "reg", text "val"]

end I2cCommand

namespace Request

def command : Request → I2cCommand
  | .read _ _ _ => .read
  | .write _ _ _ _ => .write

/-- The numbers of a request. -/
def values : Request → List Int
  | .read bus address reg => [bus, address, reg]
  | .write bus address reg value => [bus, address, reg, value]

def bus : Request → Int
  | .read bus _ _ => bus
  | .write bus _ _ _ => bus

/-- What `HandleCommand` does with a request it accepts. -/
def perform (a : Answers) : Request → Handler Bytes
  | .read bus address reg => readI2CRegister a bus address reg
  | .write bus address reg value => do
      writeI2CRegister a bus address reg value
      wrapReply (text "ACK")

end Request

/-- The reply with the result `Invalid parameters`. -/
def invalidReply : Bytes := text "\x7b\"command\":\"ACK\",\"result\":\"Invalid parameters\"\x7d"

/-- The reply to invalid parameters makes no call. -/
theorem wrapReply_invalid (m : Machine) :
    wrapReply (text "Invalid parameters") m = (.returns invalidReply, m) := rfl

section Requests

variable {p : Platform} {a : Answers} {j : Json} {m : Machine}

/-- A request whose parameters can be read is refused when one of them is -1, and
else carried out. -/
theorem handleCommand_of_request {r : Request} (hr : request? j = some r) :
    handleCommand p a j m =
      if -1 ∈ r.values then (.returns invalidReply, m) else r.perform a m := by
  rcases request?_cases hr with ⟨bus, address, reg, rfl, hcommand, hbus, haddress, hreg⟩ |
    ⟨bus, address, reg, value, rfl, hcommand, hbus, haddress, hreg, hvalue⟩
  · rw [handleCommand_eq_of_read hcommand, handleReadI2CRegister,
      bind_of_returns ((parameter_yields j _ m _ m).mpr ⟨hbus, rfl⟩),
      bind_of_returns ((parameter_yields j _ m _ m).mpr ⟨haddress, rfl⟩),
      bind_of_returns ((parameter_yields j _ m _ m).mpr ⟨hreg, rfl⟩)]
    simp only [Request.values, List.mem_cons, List.not_mem_nil, or_false, eq_comm, Request.perform]
    split
    · exact wrapReply_invalid m
    · rfl
  · rw [handleCommand_eq_of_write hcommand, handleWriteI2CRegister,
      bind_of_returns ((parameter_yields j _ m _ m).mpr ⟨hbus, rfl⟩),
      bind_of_returns ((parameter_yields j _ m _ m).mpr ⟨haddress, rfl⟩),
      bind_of_returns ((parameter_yields j _ m _ m).mpr ⟨hreg, rfl⟩),
      bind_of_returns ((parameter_yields j _ m _ m).mpr ⟨hvalue, rfl⟩)]
    simp only [Request.values, List.mem_cons, List.not_mem_nil, or_false, eq_comm, Request.perform]
    split
    · exact wrapReply_invalid m
    · rfl

/-- A request is read off its command and its parameters, in their order. -/
theorem request?_eq_some_iff {r : Request} :
    request? j = some r ↔ command? j = some r.command.name ∧
      r.command.parameters.map (parameter? j) = r.values.map some := by
  constructor
  · intro hr
    rcases request?_cases hr with ⟨bus, address, reg, rfl, hcommand, hbus, haddress, hreg⟩ |
      ⟨bus, address, reg, value, rfl, hcommand, hbus, haddress, hreg, hvalue⟩
    · exact ⟨hcommand, by simp [Request.command, I2cCommand.parameters, Request.values, hbus,
        haddress, hreg]⟩
    · exact ⟨hcommand, by simp [Request.command, I2cCommand.parameters, Request.values, hbus,
        haddress, hreg, hvalue]⟩
  · intro h
    obtain ⟨hcommand, hvalues⟩ := h
    cases r with
    | read bus address reg =>
        simp only [Request.command, I2cCommand.parameters, Request.values, List.map_cons,
          List.map_nil, List.cons.injEq, and_true] at hvalues
        simp only [request?, hcommand, hvalues, Option.bind_eq_bind, Option.bind_some]
        rfl
    | write bus address reg value =>
        simp only [Request.command, I2cCommand.parameters, Request.values, List.map_cons,
          List.map_nil, List.cons.injEq, and_true] at hvalues
        simp only [request?, hcommand, hvalues, Option.bind_eq_bind, Option.bind_some]
        rfl

/-- Where all parameters of a command can be read, they make a request. -/
theorem exists_request {c : I2cCommand} (hcommand : command? j = some c.name)
    (h : ∀ key ∈ c.parameters, (parameter? j key).isSome) :
    ∃ r, r.command = c ∧ request? j = some r := by
  cases c with
  | read =>
      simp only [I2cCommand.parameters, List.forall_mem_cons, List.not_mem_nil, false_implies,
        implies_true, and_true, Option.isSome_iff_exists] at h
      obtain ⟨⟨bus, hbus⟩, ⟨address, haddress⟩, reg, hreg⟩ := h
      refine ⟨.read bus address reg, rfl, request?_eq_some_iff.mpr ⟨hcommand, ?_⟩⟩
      simp [Request.command, I2cCommand.parameters, Request.values, hbus, haddress, hreg]
  | write =>
      simp only [I2cCommand.parameters, List.forall_mem_cons, List.not_mem_nil, false_implies,
        implies_true, and_true, Option.isSome_iff_exists] at h
      obtain ⟨⟨bus, hbus⟩, ⟨address, haddress⟩, ⟨reg, hreg⟩, value, hvalue⟩ := h
      refine ⟨.write bus address reg value, rfl, request?_eq_some_iff.mpr ⟨hcommand, ?_⟩⟩
      simp [Request.command, I2cCommand.parameters, Request.values, hbus, haddress, hreg, hvalue]

/-- The bus of a request is an `int`. -/
theorem bus_range_of_request {r : Request} (hr : request? j = some r) :
    -2 ^ 31 ≤ r.bus ∧ r.bus < 2 ^ 31 := by
  have hvalues := (request?_eq_some_iff.mp hr).2
  cases r with
  | read bus address reg => exact parameter?_range (List.cons.inj hvalues).1
  | write bus address reg value => exact parameter?_range (List.cons.inj hvalues).1

/-- The request has the command it was asked for. -/
theorem command_of_request {c : I2cCommand} {r : Request} (hcommand : command? j = some c.name)
    (hr : request? j = some r) : r.command = c := by
  have hname := Option.some.inj ((request?_eq_some_iff.mp hr).1.symm.trans hcommand)
  revert hname
  cases r <;> cases c <;> simp [Request.command, I2cCommand.name, text]

/-- Where a parameter cannot be read, `HandleCommand` does not return. -/
theorem exists_request_of_completes {c : I2cCommand} (hcommand : command? j = some c.name)
    (h : Completes (handleCommand p a j) m) : ∃ r, r.command = c ∧ request? j = some r := by
  apply exists_request hcommand
  obtain ⟨command, hfound, hanswer⟩ := handleCommand_completes.mp h
  obtain rfl := Option.some.inj (hcommand.symm.trans hfound)
  cases c with
  | read =>
      obtain ⟨bus, address, reg, hbus, haddress, hreg, -⟩ := hanswer
      simp [I2cCommand.parameters, hbus, haddress, hreg]
  | write =>
      obtain ⟨bus, address, reg, value, hbus, haddress, hreg, hvalue, -⟩ := hanswer
      simp [I2cCommand.parameters, hbus, haddress, hreg, hvalue]

/-! ## Calls of a request -/

/-- Only calls that satisfy `P` are made in between. -/
def Makes (P : SysCall → Prop) (m m' : Machine) : Prop :=
  ∃ made, m'.calls = m.calls ++ made ∧ ∀ c ∈ made, P c

/-- No calls at all. -/
theorem makes_refl (P : SysCall → Prop) (m : Machine) : Makes P m m := ⟨[], by simp⟩

/-- Calls of a kind, one stretch behind the other. -/
theorem makes_trans (P : SysCall → Prop) (m₁ m₂ m₃ : Machine) (h₁ : Makes P m₁ m₂)
    (h₂ : Makes P m₂ m₃) : Makes P m₁ m₃ := by
  obtain ⟨front, hfront, hall⟩ := h₁
  obtain ⟨back, hback, hall'⟩ := h₂
  refine ⟨front ++ back, by rw [hback, hfront, List.append_assoc], fun c hc => ?_⟩
  rcases List.mem_append.mp hc with h | h
  · exact hall c h
  · exact hall' c h

/-- One call of the kind. -/
theorem moves_call {P : SysCall → Prop} {c : SysCall} (h : P c) : Moves (Makes P) (call c) :=
  fun m => ⟨[c], rfl, by simpa using h⟩

/-- A procedure that leaves the machine makes none. -/
theorem moves_of_same {P : SysCall → Prop} {α : Type} {q : Handler α} (h : ∀ m, (q m).2 = m) :
    Moves (Makes P) q :=
  fun m => (h m).symm ▸ makes_refl P m

/-- So `WrapReply` makes none. -/
theorem moves_wrapReply {P : SysCall → Prop} (result : Bytes) :
    Moves (Makes P) (wrapReply result) :=
  moves_of_same (wrapReply_same result)

/-- Nor does formatting. -/
theorem moves_sprintf {P : SysCall → Prop} (room : Nat) (formatted : Bytes) :
    Moves (Makes P) (sprintf room formatted : Handler Bytes) := by
  apply moves_of_same
  intro m
  unfold sprintf
  split <;> rfl

/-- The calls that belong to a request: its device file, slave address, register
and value, and the close. -/
def Request.Call : Request → SysCall → Prop
  | r, .openFile path _ => path = deviceName r.bus
  | .read _ address _, .setSlave slave _ => slave = address
  | .write _ address _ _, .setSlave slave _ => slave = address
  | .read _ _ reg, .smbus direction command _ _ =>
      direction = .read ∧ command = UInt8.ofInt reg
  | .write _ _ reg value, .smbus direction command data _ =>
      direction = .write ∧ command = UInt8.ofInt reg ∧ data = UInt8.ofInt value
  | _, .closeFile => True
  | _, _ => False

/-- A function that formats its device name and opens the device file makes that
call and those that follow, or none because the name overran its buffer. -/
theorem opens_first {P : SysCall → Prop} {α : Type} {function q : Handler α} {bus : Int}
    {opened : Bool}
    (hfunction : function = do
      let filename ← sprintf 20 (deviceName bus)
      call (.openFile filename opened)
      q)
    (hopen : P (.openFile (deviceName bus) opened)) (hq : Moves (Makes P) q) (m : Machine) :
    Makes P m (function m).2 ∧
      if (deviceName bus).length < 20 then (function m).2 ≠ m
      else function m = (.undefined, m) := by
  split
  · rename_i hfits
    have hrun : function m = q (m.logged (.openFile (deviceName bus) opened)) := by
      rw [hfunction, bind_of_returns (sprintf_apply hfits m), call_bind]
    obtain ⟨made, hcalls, hmade⟩ := hq (m.logged (.openFile (deviceName bus) opened))
    rw [hrun]
    constructor
    · refine ⟨.openFile (deviceName bus) opened :: made, ?_,
        List.forall_mem_cons.mpr ⟨hopen, hmade⟩⟩
      rw [hcalls, Machine.logged, List.append_assoc, List.singleton_append]
    · intro heq
      rw [heq, Machine.logged] at hcalls
      simp at hcalls
  · rename_i hlong
    have hrun : function m = (.undefined, m) := by
      rw [hfunction, bind_apply, sprintf, if_neg hlong]
      rfl
    rw [hrun]
    exact ⟨makes_refl P m, rfl⟩

/-- A read makes calls on its own device only, and at least one if the name fits. -/
theorem readI2CRegister_moves (a : Answers) (bus address reg : Int) (m : Machine) :
    Makes (Request.Call (.read bus address reg)) m (readI2CRegister a bus address reg m).2 ∧
      if (deviceName bus).length < 20 then (readI2CRegister a bus address reg m).2 ≠ m
      else readI2CRegister a bus address reg m = (.undefined, m) := by
  have hread : Moves (Makes (Request.Call (.read bus address reg)))
      (i2cSmbusReadByteData a ⟨bus, address⟩ (UInt8.ofInt reg)) := by
    intro m
    rw [i2cSmbusReadByteData_eq]
    exact ⟨[_], rfl, by simp [Request.Call]⟩
  have hslave : Request.Call (.read bus address reg) (.setSlave address a.setSlave) := rfl
  have hclose : Request.Call (.read bus address reg) .closeFile := trivial
  have hopen : Request.Call (.read bus address reg) (.openFile (deviceName bus) a.openDevice) := rfl
  refine opens_first rfl hopen ?_ m
  refine moves_ite (moves_bind (makes_trans _) (moves_call hslave) fun _ => ?_) (moves_wrapReply _)
  refine moves_ite ?_ (moves_bind (makes_trans _) (moves_call hclose) fun _ => moves_wrapReply _)
  refine moves_bind (makes_trans _) hread fun _ => ?_
  refine moves_bind (makes_trans _) (moves_sprintf _ _) fun _ => ?_
  exact moves_bind (makes_trans _) (moves_call hclose) fun _ => moves_wrapReply _

/-- So does a write. -/
theorem writeI2CRegister_moves (a : Answers) (bus address reg value : Int) (m : Machine) :
    Makes (Request.Call (.write bus address reg value)) m
        (writeI2CRegister a bus address reg value m).2 ∧
      if (deviceName bus).length < 20 then (writeI2CRegister a bus address reg value m).2 ≠ m
      else writeI2CRegister a bus address reg value m = (.undefined, m) := by
  have hwrite : Moves (Makes (Request.Call (.write bus address reg value)))
      (i2cSmbusWriteByteData a ⟨bus, address⟩ (UInt8.ofInt reg) (UInt8.ofInt value)) := by
    intro m
    rw [i2cSmbusWriteByteData_eq]
    cases a.transfer with
    | false => exact ⟨[_], rfl, by simp [Request.Call]⟩
    | true => exact ⟨[_], rfl, by simp [Request.Call]⟩
  have hslave : Request.Call (.write bus address reg value) (.setSlave address a.setSlave) := rfl
  have hclose : Request.Call (.write bus address reg value) .closeFile := trivial
  have hopen : Request.Call (.write bus address reg value)
      (.openFile (deviceName bus) a.openDevice) := rfl
  refine opens_first rfl hopen ?_ m
  refine moves_ite (moves_bind (makes_trans _) (moves_call hslave) fun _ => ?_)
    (moves_of_same fun _ => rfl)
  refine moves_ite (moves_bind (makes_trans _) hwrite fun _ => ?_) (moves_call hclose)
  exact moves_ite (moves_call hclose) (moves_call hclose)

/-- A request that is carried out makes its own calls only, and at least one
unless its device name overruns the buffer. -/
theorem perform_moves (a : Answers) (r : Request) (m : Machine) :
    Makes r.Call m (r.perform a m).2 ∧
      if (deviceName r.bus).length < 20 then (r.perform a m).2 ≠ m
      else r.perform a m = (.undefined, m) := by
  cases r with
  | read bus address reg => exact readI2CRegister_moves a bus address reg m
  | write bus address reg value =>
      obtain ⟨hcalls, hstarts⟩ := writeI2CRegister_moves a bus address reg value m
      have hsame : (Request.perform a (.write bus address reg value) m).2 =
          (writeI2CRegister a bus address reg value m).2 := by
        rw [Request.perform, bind_apply]
        rcases writeI2CRegister a bus address reg value m with ⟨_ | _ | _ | _, m'⟩ <;> rfl
      rw [hsame, Request.bus]
      refine ⟨hcalls, ?_⟩
      split at hstarts
      · rename_i hfits
        rwa [if_pos hfits]
      · rename_i hlong
        rw [if_neg hlong, Request.perform, bind_apply, hstarts]

/-- A request that is carried out does not return without a call. -/
theorem perform_ne_returns (a : Answers) (r : Request) (m : Machine) (reply : Bytes) :
    r.perform a m ≠ (.returns reply, m) := by
  intro heq
  have hstarts := (perform_moves a r m).2
  rw [heq] at hstarts
  split at hstarts
  · exact hstarts rfl
  · cases hstarts

end Requests

/-! ## Malformed requests -/

/-- A JSON number. -/
def IsNumber : Json → Prop
  | .numberInteger _ => True
  | .numberUnsigned _ => True
  | .numberFloat _ => True
  | _ => False

namespace I2cCommand

/-- The request has an object of parameters, and in it a number for each
parameter of the command. -/
def WellFormed (c : I2cCommand) (members : List (Bytes × Json)) : Prop :=
  ∃ parameters, members.lookup (text "parameters") = some (.object parameters) ∧
    ∀ key ∈ c.parameters, ∃ member, parameters.lookup key = some member ∧ IsNumber member

/-- The request has an object of parameters; those of the command that are in it
can be converted to an `int`, and one of them is not in it or converts to -1. -/
def ReadsAsMissing (c : I2cCommand) (members : List (Bytes × Json)) : Prop :=
  ∃ parameters, members.lookup (text "parameters") = some (.object parameters) ∧
    (∀ key ∈ c.parameters, ∀ member, parameters.lookup key = some member → member.int?.isSome) ∧
    ∃ key ∈ c.parameters, ∀ member, parameters.lookup key = some member →
      member.int? = some (-1)

end I2cCommand

section Malformed

variable {p : Platform} {a : Answers} {c : I2cCommand} {m : Machine}

/-- The numbers of a request are what its parameters read as. -/
theorem exists_request_iff {j : Json} (hcommand : command? j = some c.name) :
    (∃ r, request? j = some r ∧ -1 ∈ r.values) ↔
      (∀ key ∈ c.parameters, (parameter? j key).isSome) ∧
        ∃ key ∈ c.parameters, parameter? j key = some (-1) := by
  constructor
  · intro h
    obtain ⟨r, hr, hmissing⟩ := h
    obtain rfl := command_of_request hcommand hr
    have hvalues := (request?_eq_some_iff.mp hr).2
    constructor
    · intro key hkey
      have hmem : parameter? j key ∈ r.values.map some := by
        rw [← hvalues]
        exact List.mem_map_of_mem hkey
      obtain ⟨value, -, hvalue⟩ := List.mem_map.mp hmem
      rw [← hvalue]
      rfl
    · have hmem : some (-1) ∈ r.command.parameters.map (parameter? j) := by
        rw [hvalues]
        exact List.mem_map_of_mem hmissing
      exact List.mem_map.mp hmem
  · intro h
    obtain ⟨hreadable, key, hkey, hmissing⟩ := h
    obtain ⟨r, rfl, hr⟩ := exists_request hcommand hreadable
    have hmem : some (-1) ∈ r.values.map some := by
      rw [← (request?_eq_some_iff.mp hr).2, ← hmissing]
      exact List.mem_map_of_mem hkey
    obtain ⟨value, hvalue, heq⟩ := List.mem_map.mp hmem
    exact ⟨r, hr, Option.some.inj heq ▸ hvalue⟩

/-- A parameter is looked up in the object under `parameters`. -/
theorem parameter?_of_object {members parameters : List (Bytes × Json)}
    (h : members.lookup (text "parameters") = some (.object parameters)) (key : Bytes) :
    parameter? (.object members) key =
      match parameters.lookup key with
      | some member => member.int?
      | none => some (-1) := by
  rw [parameter?, Json.members?, Option.bind_some, h, Option.bind_some]
  rfl

/-- A parameter that can be read is in an object. -/
theorem parameters_of_isSome {members : List (Bytes × Json)} {key : Bytes}
    (h : (parameter? (.object members) key).isSome) :
    ∃ parameters, members.lookup (text "parameters") = some (.object parameters) := by
  simp only [parameter?, Json.members?, Option.bind_some] at h
  cases hlookup : members.lookup (text "parameters") with
  | none => simp [hlookup] at h
  | some value =>
      cases value with
      | object parameters => exact ⟨parameters, rfl⟩
      | _ => simp [hlookup, Json.member?, Json.members?] at h

/-- All parameters can be read, and one of them is read as -1. -/
theorem readsAsMissing_iff {members : List (Bytes × Json)} :
    c.ReadsAsMissing members ↔
      (∀ key ∈ c.parameters, (parameter? (.object members) key).isSome) ∧
        ∃ key ∈ c.parameters, parameter? (.object members) key = some (-1) := by
  constructor
  · intro h
    obtain ⟨parameters, hparameters, hreadable, key, hkey, hmissing⟩ := h
    constructor
    · intro key hkey
      rw [parameter?_of_object hparameters]
      cases hlookup : parameters.lookup key with
      | none => rfl
      | some member => exact hreadable key hkey member hlookup
    · refine ⟨key, hkey, ?_⟩
      rw [parameter?_of_object hparameters]
      cases hlookup : parameters.lookup key with
      | none => rfl
      | some member => exact hmissing member hlookup
  · intro h
    obtain ⟨hreadable, key, hkey, hmissing⟩ := h
    obtain ⟨parameters, hparameters⟩ := parameters_of_isSome (hreadable key hkey)
    refine ⟨parameters, hparameters, ?_, key, hkey, ?_⟩
    · intro key hkey member hlookup
      have hsome := hreadable key hkey
      rwa [parameter?_of_object hparameters, hlookup] at hsome
    · intro member hlookup
      rwa [parameter?_of_object hparameters, hlookup] at hmissing

/-- Requests that are refused: `HandleCommand` returns its reply for invalid
parameters and makes no call. -/
theorem refuses_iff {j : Json} (hcommand : command? j = some c.name) :
    handleCommand p a j m = (.returns invalidReply, m) ↔
      ∃ r, request? j = some r ∧ -1 ∈ r.values := by
  constructor
  · intro h
    obtain ⟨r, -, hr⟩ := exists_request_of_completes hcommand ⟨invalidReply, m, h⟩
    refine ⟨r, hr, ?_⟩
    rw [handleCommand_of_request hr] at h
    by_contra hnone
    rw [if_neg hnone] at h
    exact perform_ne_returns a r m invalidReply h
  · intro h
    obtain ⟨r, hr, hmissing⟩ := h
    rw [handleCommand_of_request hr, if_pos hmissing]

end Malformed

/-- **Validation, exactly.**  A malformed I2C request is refused as such if and
only if it has an object of parameters in which every value can be converted and
one is missing or converts to -1.  Without the object an assertion fails, and a
value of another type leaves by an exception, booleans apart. -/
theorem validation_iff (p : Platform) (a : Answers) (c : I2cCommand)
    (members : List (Bytes × Json)) (m : Machine)
    (hcommand : members.lookup (text "command") = some (.string c.name)) :
    (¬ c.WellFormed members →
        handleCommand p a (.object members) m = (.returns invalidReply, m)) ↔
      c.WellFormed members ∨ c.ReadsAsMissing members := by
  have hcommand' : command? (.object members) = some c.name := by
    simp [command?, Json.member?, Json.members?, Json.string?, hcommand]
  rw [refuses_iff hcommand', exists_request_iff hcommand', ← readsAsMissing_iff,
    or_iff_not_imp_left]

/-- The members of a read without a bus. -/
def noBus : List (Bytes × Json) :=
  [(text "command", .string (text "read_i2c_register")),
    (text "parameters", .object [(text "address", .numberUnsigned 80),
      (text "reg", .numberUnsigned 1)])]

/-- A read without a bus is malformed, and refused. -/
theorem validation_without_bus :
    ¬ I2cCommand.read.WellFormed noBus ∧
      handleCommand ⟨32, 4096⟩ willing (.object noBus) zeroMachine =
        (.returns invalidReply, zeroMachine) := by
  have hmissing : I2cCommand.read.ReadsAsMissing noBus :=
    ⟨_, rfl, by decide, text "bus", by decide, fun member h => by cases h⟩
  have hmalformed : ¬ I2cCommand.read.WellFormed noBus := by
    intro h
    obtain ⟨parameters, hparameters, hnumbers⟩ := h
    cases hparameters
    obtain ⟨member, hbus, -⟩ := hnumbers (text "bus") (by decide)
    cases hbus
  exact ⟨hmalformed, (validation_iff _ _ _ _ _ rfl).mpr (.inr hmissing) hmalformed⟩

/-- A request that is nothing but its command is malformed and not refused: the
assertion of `operator[]` fails. -/
theorem aborts_without_parameters :
    ¬ I2cCommand.read.WellFormed [(text "command", .string (text "read_i2c_register"))] ∧
      (handleCommand ⟨32, 4096⟩ willing
        (.object [(text "command", .string (text "read_i2c_register"))]) zeroMachine).1 =
          .aborts := by
  refine ⟨fun h => ?_, rfl⟩
  obtain ⟨parameters, hparameters, -⟩ := h
  cases hparameters

/-! ## Requested numbers and numbers on the bus -/

/-- A JSON integer, with or without a sign in its text. -/
inductive Integer where
  | signed (n : Int64)
  | unsigned (n : UInt64)

namespace Integer

def json : Integer → Json
  | .signed n => .numberInteger n
  | .unsigned n => .numberUnsigned n

def value : Integer → Int
  | .signed n => n.toInt
  | .unsigned n => n.toNat

/-- An integer is read by its low 32 bits. -/
theorem int?_json (n : Integer) : n.json.int? = some (toInt32 n.value) := by
  cases n with
  | signed n => rfl
  | unsigned n => rfl

end Integer

/-- An I2C request all of whose parameters are integers. -/
structure IntegerRequest where
  command : I2cCommand
  members : List (Bytes × Json)
  parameters : List (Bytes × Json)
  number : Bytes → Integer
  command_eq : members.lookup (text "command") = some (.string command.name)
  parameters_eq : members.lookup (text "parameters") = some (.object parameters)
  number_eq : ∀ key ∈ command.parameters, parameters.lookup key = some (number key).json

namespace Request

/-- Another number in the place of each. -/
def map (f : Int → Int) : Request → Request
  | .read bus address reg => .read (f bus) (f address) (f reg)
  | .write bus address reg value => .write (f bus) (f address) (f reg) (f value)

/-- All numbers are `int`s, register and value bytes. -/
def Fits (r : Request) : Prop :=
  (∀ n ∈ r.values, -2 ^ 31 ≤ n ∧ n < 2 ^ 31) ∧ r.InRange

/-- The calls that carry the numbers of a request as they are. -/
def CarriedBy : Request → SysCall → Prop
  | r, .openFile path _ => path = deviceName r.bus
  | .read _ address _, .setSlave slave _ => slave = address
  | .write _ address _ _, .setSlave slave _ => slave = address
  | .read _ _ reg, .smbus direction command _ _ =>
      direction = .read ∧ (command.toNat : Int) = reg
  | .write _ _ reg value, .smbus direction command data _ =>
      direction = .write ∧ (command.toNat : Int) = reg ∧ (data.toNat : Int) = value
  | _, .closeFile => True
  | _, _ => False

end Request

/-- A transfer on the bus. -/
def SysCall.IsTransfer : SysCall → Prop
  | .smbus _ _ _ _ => True
  | _ => False

/-- The reply with the result `Error`. -/
def errorReply : Bytes := text "\x7b\"command\":\"ACK\",\"result\":\"Error\"\x7d"

namespace IntegerRequest

def json (r : IntegerRequest) : Json := .object r.members

/-- The request with the numbers its text states. -/
def requested (r : IntegerRequest) : Request :=
  let value key := (r.number key).value
  match r.command with
  | .read => .read (value (text "bus")) (value (text "address")) (value (text "reg"))
  | .write =>
      .write (value (text "bus")) (value (text "address")) (value (text "reg"))
        (value (text "val"))

/-- What a request asks of its handling: the calls carry its numbers, nothing is
overrun before the first of them, and where a number does not fit the reply is an
error and no transfer is made. -/
structure Carried (r : IntegerRequest) (p : Platform) (a : Answers) (m : Machine) : Prop where
  numbers : Makes r.requested.CarriedBy m (handleCommand p a r.json m).2
  starts : handleCommand p a r.json m ≠ (.undefined, m)
  refused : ¬ r.requested.Fits →
    (∃ reply ∈ [invalidReply, errorReply], (handleCommand p a r.json m).1 = .returns reply) ∧
      Makes (¬ ·.IsTransfer) m (handleCommand p a r.json m).2

end IntegerRequest

section Numbers

/-- An integer that fits an `int` is read as it is. -/
theorem toInt32_of_fits {n : Int} (h : -2 ^ 31 ≤ n ∧ n < 2 ^ 31) : toInt32 n = n := by
  unfold toInt32
  rw [Int.bmod_def]
  omega

/-- The numbers that the check takes for a missing parameter. -/
theorem toInt32_eq_neg_one {n : Int} : toInt32 n = -1 ↔ 2 ^ 32 ∣ n + 1 := by
  unfold toInt32
  rw [Int.bmod_def]
  omega

/-- One that fits a byte is that byte. -/
theorem toNat_ofInt_byte {n : Int} (h : 0 ≤ n ∧ n ≤ 255) : ((UInt8.ofInt n).toNat : Int) = n := by
  have hbyte : (n % 2 ^ 8).toNat < 2 ^ 8 := by omega
  rw [UInt8.ofInt, UInt8.toNat_ofNat_of_lt' hbyte]
  omega

/-- A map acts on each parameter. -/
theorem Request.values_map (f : Int → Int) (r : Request) :
    (r.map f).values = r.values.map f := by
  cases r with
  | read bus address reg => rfl
  | write bus address reg value => rfl

/-- The bus is one of the parameters. -/
theorem Request.bus_mem_values (r : Request) : r.bus ∈ r.values := by
  cases r with
  | read bus address reg => exact List.mem_cons_self
  | write bus address reg value => exact List.mem_cons_self

/-- A request that fits comes through the narrowing as it is. -/
theorem Request.map_of_fits {r : Request} (h : r.Fits) : r.map toInt32 = r := by
  have hint : ∀ n ∈ r.values, toInt32 n = n := fun n hn => toInt32_of_fits (h.1 n hn)
  cases r with
  | read bus address reg => simp_all [Request.map, Request.values]
  | write bus address reg value => simp_all [Request.map, Request.values]

/-- The calls of a request that fits carry its numbers. -/
theorem Request.carriedBy_of_call {r : Request} (h : r.Fits) {c : SysCall} (hc : r.Call c) :
    r.CarriedBy c := by
  obtain ⟨-, hbytes⟩ := h
  cases r with
  | read bus address reg =>
      cases c with
      | smbus direction command data succeeded =>
          obtain ⟨hdirection, rfl⟩ := hc
          exact ⟨hdirection, toNat_ofInt_byte hbytes⟩
      | _ => exact hc
  | write bus address reg value =>
      cases c with
      | smbus direction command data succeeded =>
          obtain ⟨hdirection, rfl, rfl⟩ := hc
          exact ⟨hdirection, toNat_ofInt_byte hbytes.1, toNat_ofInt_byte hbytes.2⟩
      | _ => exact hc

/-- Calls of one kind are of a wider one. -/
theorem Makes.imp {P Q : SysCall → Prop} (h : ∀ c, P c → Q c) {m m' : Machine}
    (hmakes : Makes P m m') : Makes Q m m' := by
  obtain ⟨made, hcalls, hall⟩ := hmakes
  exact ⟨made, hcalls, fun c hc => h c (hall c hc)⟩

/-- A map does not change the command. -/
theorem Request.command_map (f : Int → Int) (r : Request) : (r.map f).command = r.command := by
  cases r with
  | read bus address reg => rfl
  | write bus address reg value => rfl

namespace IntegerRequest

/-- Nor does the choice of the numbers. -/
theorem command_requested (r : IntegerRequest) : r.requested.command = r.command := by
  unfold requested
  cases r.command with
  | read => rfl
  | write => rfl

/-- The parameters of a request are the numbers under its keys. -/
theorem values_requested (r : IntegerRequest) :
    r.requested.values = r.command.parameters.map fun key => (r.number key).value := by
  unfold requested
  cases r.command with
  | read => rfl
  | write => rfl

/-- `HandleCommand` reads the numbers of a request narrowed to `int`. -/
theorem request?_json (r : IntegerRequest) : request? r.json = some (r.requested.map toInt32) := by
  rw [request?_eq_some_iff, Request.command_map, Request.values_map, command_requested,
    values_requested, List.map_map, List.map_map]
  constructor
  · simp [json, command?, Json.member?, Json.members?, Json.string?, r.command_eq]
  · apply List.map_congr_left
    intro key hkey
    rw [json, parameter?_of_object r.parameters_eq, r.number_eq key hkey]
    exact Integer.int?_json _

/-- A parameter counts as missing exactly if 2 ^ 32 divides its successor. -/
theorem missing_iff (r : IntegerRequest) :
    -1 ∈ (r.requested.map toInt32).values ↔ ∃ n ∈ r.requested.values, 2 ^ 32 ∣ n + 1 := by
  rw [Request.values_map, List.mem_map]
  exact exists_congr fun n => and_congr_right fun _ => toInt32_eq_neg_one

/-- A refused request has its reply and makes no call. -/
theorem carried_of_missing {r : IntegerRequest} (h : -1 ∈ (r.requested.map toInt32).values)
    (p : Platform) (a : Answers) (m : Machine) : r.Carried p a m := by
  have hrun : handleCommand p a r.json m = (.returns invalidReply, m) := by
    rw [handleCommand_of_request r.request?_json, if_pos h]
  constructor
  · rw [hrun]
    exact makes_refl _ m
  · rw [hrun]
    intro heq
    cases heq
  · rw [hrun]
    exact fun _ => ⟨⟨invalidReply, by simp, rfl⟩, makes_refl _ m⟩

/-- Parameters that fit are carried to the device. -/
theorem carried_of_fits {r : IntegerRequest} (hfits : r.requested.Fits)
    (hname : -1000000000 < r.requested.bus) (p : Platform) (a : Answers) (m : Machine) :
    r.Carried p a m := by
  by_cases hmissing : -1 ∈ (r.requested.map toInt32).values
  · exact carried_of_missing hmissing p a m
  · have hrun : handleCommand p a r.json m = r.requested.perform a m := by
      rw [handleCommand_of_request r.request?_json, if_neg hmissing, Request.map_of_fits hfits]
    have hbus := (hfits.1 _ r.requested.bus_mem_values).2
    obtain ⟨hcalls, hstarts⟩ := perform_moves a r.requested m
    rw [if_pos ((deviceName_fits hbus).mpr hname)] at hstarts
    constructor
    · rw [hrun]
      exact hcalls.imp fun c => Request.carriedBy_of_call hfits
    · rw [hrun]
      intro heq
      rw [heq] at hstarts
      exact hstarts rfl
    · exact fun hnot => absurd hfits hnot

end IntegerRequest

/-- Some system makes an accepted request end without an error reply: a read by
failing at the transfer, a write by carrying it out. -/
theorem exists_perform_ne_error {r : Request} (hbus : r.bus < 2 ^ 31) :
    ∃ a, ∀ m, ∀ reply ∈ [invalidReply, errorReply], (r.perform a m).1 ≠ .returns reply := by
  cases r with
  | read bus address reg =>
      refine ⟨{ willing with transfer := false }, fun m reply _ heq => ?_⟩
      have hcompletes : Completes (readI2CRegister { willing with transfer := false }
          bus address reg) m := ⟨reply, _, Prod.ext heq rfl⟩
      have htransfer := ((readI2CRegister_completes hbus).mp hcompletes).2 rfl rfl
      cases htransfer
  | write bus address reg value =>
      refine ⟨willing, fun m reply herror heq => ?_⟩
      obtain ⟨u, m', -, hack⟩ := returns_bind.mp (show _ = (Outcome.returns reply, _) from
        Prod.ext heq rfl)
      rw [wrapReply_ack] at hack
      obtain rfl := Outcome.returns.inj (Prod.mk.inj hack).1
      revert herror
      decide

end Numbers

/-- **Numbers on the bus, exactly.**  Whatever the system does, the calls carry
the requested numbers and a number that does not fit is answered with an error,
if and only if one of the numbers reads as a missing parameter, or all fit and
the device name fits as well.  Any other number is cut to an `int` and to a byte
and reaches the bus as another one. -/
theorem numbers_carried_iff (r : IntegerRequest) :
    (∀ p a m, r.Carried p a m) ↔
      (∃ n ∈ r.requested.values, 2 ^ 32 ∣ n + 1) ∨
        r.requested.Fits ∧ -1000000000 < r.requested.bus := by
  rw [← r.missing_iff]
  constructor
  · intro h
    by_cases hmissing : -1 ∈ (r.requested.map toInt32).values
    · exact .inl hmissing
    · have hrun : ∀ p a m, handleCommand p a r.json m = (r.requested.map toInt32).perform a m := by
        intro p a m
        rw [handleCommand_of_request r.request?_json, if_neg hmissing]
      have hfits : r.requested.Fits := by
        by_contra hnot
        have hbus : (r.requested.map toInt32).bus < 2 ^ 31 := by
          cases r.requested with
          | read bus address reg => exact (toInt32_range bus).2
          | write bus address reg value => exact (toInt32_range bus).2
        obtain ⟨a, hends⟩ := exists_perform_ne_error hbus
        obtain ⟨⟨reply, herror, hreply⟩, -⟩ := (h ⟨32, 4096⟩ a zeroMachine).refused hnot
        rw [hrun] at hreply
        exact hends zeroMachine reply herror hreply
      refine .inr ⟨hfits, ?_⟩
      have hbus := (hfits.1 _ r.requested.bus_mem_values).2
      by_contra hlong
      rw [← deviceName_fits hbus] at hlong
      have hstarts := (perform_moves willing r.requested zeroMachine).2
      rw [if_neg hlong] at hstarts
      apply (h ⟨32, 4096⟩ willing zeroMachine).starts
      rw [hrun, Request.map_of_fits hfits, hstarts]
  · intro h p a m
    rcases h with hmissing | ⟨hfits, hname⟩
    · exact IntegerRequest.carried_of_missing hmissing p a m
    · exact IntegerRequest.carried_of_fits hfits hname p a m

/-- A write of 1 to register 256 of a device. -/
def pastLastRegister : IntegerRequest where
  command := .write
  members := [(text "command", .string (text "write_i2c_register")),
    (text "parameters", .object [(text "bus", .numberUnsigned 1),
      (text "address", .numberUnsigned 80), (text "reg", .numberUnsigned 256),
      (text "val", .numberUnsigned 1)])]
  parameters := [(text "bus", .numberUnsigned 1), (text "address", .numberUnsigned 80),
    (text "reg", .numberUnsigned 256), (text "val", .numberUnsigned 1)]
  number key :=
    if key = text "address" then .unsigned 80
    else if key = text "reg" then .unsigned 256
    else .unsigned 1
  command_eq := rfl
  parameters_eq := rfl
  number_eq := by
    simp only [I2cCommand.parameters, List.forall_mem_cons]
    exact ⟨rfl, rfl, rfl, rfl, by simp⟩

/-- A write to register 256 is made to register 0, and acknowledged. -/
theorem pastLastRegister_aliases :
    ¬ pastLastRegister.requested.Fits ∧
      (handleCommand ⟨32, 4096⟩ willing pastLastRegister.json zeroMachine).1 =
        .returns ackReply ∧
      (handleCommand ⟨32, 4096⟩ willing pastLastRegister.json zeroMachine).2.calls =
        [.openFile (text "/dev/i2c-1") true, .setSlave 80 true, .smbus .write 0 1 true,
          .closeFile] ∧
      ¬ pastLastRegister.Carried ⟨32, 4096⟩ willing zeroMachine := by
  have hfits : ¬ pastLastRegister.requested.Fits := fun h => absurd h.2 (by decide)
  have hreply : (handleCommand ⟨32, 4096⟩ willing pastLastRegister.json zeroMachine).1 =
      .returns ackReply := by decide +kernel
  refine ⟨hfits, hreply, by decide +kernel, fun h => ?_⟩
  obtain ⟨⟨reply, herror, heq⟩, -⟩ := h.refused hfits
  obtain rfl := Outcome.returns.inj (hreply.symm.trans heq)
  revert herror
  decide

end CommandServer
