import BlockstreamStation.JsonText

/-!
# The command server's handlers

`ZmqServer::HandleCommand` and the functions it calls, as procedures on a
`Machine`.  How the system answers the calls of one request is an `Answers`
record, so that every pattern of successes and failures is an input; the calls
themselves are logged in the order they are made.

* `readMemoryAddress`, `wrapReply`, `executeCommand`, `readDiskUsage`,
  `readMemoryUsage`, `readI2CRegister`, `writeI2CRegister`, `handleCommand` —
  the member functions under the source's names;
* `i2cSmbusAccess`, `i2cSmbusReadByteData`, `i2cSmbusWriteByteData` — the SMBus
  helpers, which take register and value as one byte each;
* `stoull` — `std::stoull` with base 0 and no end pointer.

A slave address, a register or a value is an `int` up to the SMBus helpers,
where it is cut to a byte.
-/

namespace CommandServer

open CText JsonText Procedures

/-- The two directions of an SMBus transfer. -/
inductive Direction where
  | read
  | write
deriving DecidableEq

/-- A call into the system, with whether it succeeded where it can fail. -/
inductive SysCall where
  | openFile (path : Bytes) (succeeded : Bool)
  | setSlave (address : Int) (succeeded : Bool)
  | smbus (direction : Direction) (command data : UInt8) (succeeded : Bool)
  | closeFile
  | mmap (start : Nat) (succeeded : Bool)
  | munmap
  | popen (command : Bytes) (succeeded : Bool)
  | pclose
deriving DecidableEq

/-- The I2C registers, by bus, slave address and register, and the calls made
so far. -/
structure Machine where
  devices : Int → Int → UInt8 → UInt8
  calls : List SysCall

/-- How the system answers the calls of one request.  `memory` is what a mapped
page shows, by physical address; `shell` is what the command prints before its
output ends, or `none` when it cannot be started. -/
structure Answers where
  openDevice : Bool
  setSlave : Bool
  transfer : Bool
  openMem : Bool
  mapPage : Bool
  memory : Nat → UInt8
  shell : Option Bytes

/-- The width of `uintptr_t` and the page size. -/
structure Platform where
  pointerBits : Nat
  pageSize : Nat

abbrev Handler (α : Type) := Proc Machine Exception α

def call (c : SysCall) : Handler Unit :=
  Proc.modify fun m => { m with calls := m.calls ++ [c] }

/-- The value of one register replaced. -/
def Machine.store (m : Machine) (bus address : Int) (register value : UInt8) : Machine :=
  { m with
    devices := fun b a r =>
      if b = bus ∧ a = address ∧ r = register then value else m.devices b a r }

def version : Bytes := text "1.0.0"

/-! ## Replies -/

/-- `WrapReply`: an object with the members `command` and `result`. -/
def wrapReply (result : Bytes) : Handler Bytes :=
  match dump [(text "command", text "ACK"), (text "result", result)] with
  | some reply => pure reply
  | none => Proc.throwing (.typeError 316)

/-! ## Physical memory -/

def readMemoryAddress (p : Platform) (a : Answers) (address : BitVec p.pointerBits) :
    Handler UInt8 := do
  call (.openFile (text "/dev/mem") a.openMem)
  if a.openMem then
    let pageSize := BitVec.ofNat p.pointerBits p.pageSize
    let pageStart := address &&& ~~~(pageSize - 1)
    let offset := address - pageStart
    call (.mmap pageStart.toNat a.mapPage)
    if a.mapPage then
      let value := a.memory (pageStart.toNat + offset.toNat)
      call .munmap
      call .closeFile
      pure value
    else
      call .closeFile
      Proc.throwing (.runtimeError (text "Failed to mmap"))
  else
    Proc.throwing (.runtimeError (text "Failed to open /dev/mem"))

/-! ## Shell commands -/

/-- What the `fgets` loop puts together: each piece counts up to its first
NUL. -/
def gather (output : Bytes) : Bytes := ((fgetsLines 128 output).map cstr).flatten

/-- Drop one trailing newline. -/
def dropNewline (result : Bytes) : Bytes :=
  if result.getLast? = some newline then result.dropLast else result

/-- `pclose` on the pipe's pointer, which is undefined on a null pointer. -/
def pclose (opened : Bool) : Handler Unit := do
  call .pclose
  if opened then pure () else Proc.undefined

/-- `ExecuteCommand`.  The shared pointer closes the pipe on every way out, also
a pipe that was never opened. -/
def executeCommand (a : Answers) (command : Bytes) : Handler Bytes := do
  call (.popen command a.shell.isSome)
  Proc.ensuring
    (match a.shell with
    | none => pure (text "Error executing command")
    | some output => wrapReply (dropNewline (gather output)))
    (pclose a.shell.isSome)

def readDiskUsage (a : Answers) : Handler Bytes := do
  wrapReply (← executeCommand a (text "df -h --output=source,size,used,avail,pcent,target"))

def readMemoryUsage (a : Answers) : Handler Bytes := do
  wrapReply (← executeCommand a (text "free -m"))

/-! ## I2C -/

/-- An open bus device with its slave address set. -/
structure DeviceFile where
  bus : Int
  slave : Int

/-- `i2c_smbus_access` for one byte of data: the result of the `ioctl` and the
data afterwards. -/
def i2cSmbusAccess (a : Answers) (file : DeviceFile) (direction : Direction)
    (command data : UInt8) : Handler (Int × UInt8) := do
  call (.smbus direction command data a.transfer)
  if a.transfer then
    match direction with
    | .read => do
        let byte ← Proc.gets fun m => m.devices file.bus file.slave command
        pure (0, byte)
    | .write => do
        Proc.modify fun m => m.store file.bus file.slave command data
        pure (0, data)
  else
    pure (-1, data)

def i2cSmbusReadByteData (a : Answers) (file : DeviceFile) (command : UInt8) :
    Handler Int := do
  let (failed, data) ← i2cSmbusAccess a file .read command 0
  if failed ≠ 0 then pure (-1) else pure data.toNat

def i2cSmbusWriteByteData (a : Answers) (file : DeviceFile) (command value : UInt8) :
    Handler Int := do
  let (failed, _) ← i2cSmbusAccess a file .write command value
  if failed ≠ 0 then pure (-1) else pure 0

def deviceName (bus : Int) : Bytes := text "/dev/i2c-" ++ decimal bus

/-- `%02x` of an `int`. -/
def twoHexDigits (data : Int) : Bytes := padded 2 (numeral 16 (data % 2 ^ 32).toNat)

def readI2CRegister (a : Answers) (bus address reg : Int) : Handler Bytes := do
  let filename ← Proc.sprintf 20 (deviceName bus)
  call (.openFile filename a.openDevice)
  if a.openDevice then
    call (.setSlave address a.setSlave)
    if a.setSlave then
      let data ← i2cSmbusReadByteData a ⟨bus, address⟩ (UInt8.ofInt reg)
      let result ← Proc.sprintf 3 (twoHexDigits data)
      call .closeFile
      wrapReply result
    else
      call .closeFile
      wrapReply (text "Error")
  else
    wrapReply (text "Error")

def writeI2CRegister (a : Answers) (bus address reg value : Int) : Handler Unit := do
  let filename ← Proc.sprintf 20 (deviceName bus)
  call (.openFile filename a.openDevice)
  if a.openDevice then
    call (.setSlave address a.setSlave)
    if a.setSlave then
      let result ← i2cSmbusWriteByteData a ⟨bus, address⟩ (UInt8.ofInt reg) (UInt8.ofInt value)
      if result < 0 then
        call .closeFile
      else
        call .closeFile
    else
      call .closeFile
  else
    pure ()

/-! ## Numbers from text -/

/-- The value of a digit in any base up to 36, and 36 for any other byte. -/
def digitValue (b : UInt8) : Nat :=
  if 48 ≤ b ∧ b ≤ 57 then b.toNat - 48
  else if 97 ≤ b ∧ b ≤ 122 then b.toNat - 87
  else if 65 ≤ b ∧ b ≤ 90 then b.toNat - 55
  else 36

/-- The sign of a numeral and what follows it. -/
def splitSign : Bytes → Bool × Bytes
  | 45 :: rest => (true, rest)
  | 43 :: rest => (false, rest)
  | rest => (false, rest)

/-- The base that a numeral's beginning announces, and its digits.  `0x` counts
only before a hexadecimal digit. -/
def splitBase : Bytes → Nat × Bytes
  | 48 :: x :: d :: rest =>
      if (x = 120 ∨ x = 88) ∧ digitValue d < 16 then (16, d :: rest)
      else (8, 48 :: x :: d :: rest)
  | 48 :: rest => (8, 48 :: rest)
  | rest => (10, rest)

/-- `std::stoull(str, nullptr, 0)`. -/
def stoull {σ : Type} (str : Bytes) : Proc σ Exception Nat :=
  let (negative, rest) := splitSign (str.dropWhile isSpace)
  let (base, rest) := splitBase rest
  let digits := rest.takeWhile (digitValue · < base)
  let magnitude := digits.foldl (fun n b => base * n + digitValue b) 0
  if digits = [] then Proc.throwing .invalidArgument
  else if 2 ^ 64 ≤ magnitude then Proc.throwing .outOfRange
  else pure (if negative then (2 ^ 64 - magnitude) % 2 ^ 64 else magnitude)

/-! ## Commands -/

/-- `command_json["parameters"].value(key, -1)`. -/
def parameter (command_json : Json) (key : Bytes) : Handler Int := do
  (← command_json.at (text "parameters")).valueInt key (-1)

/-- The branch `read_i2c_register`. -/
def handleReadI2CRegister (a : Answers) (command_json : Json) : Handler Bytes := do
  let bus ← parameter command_json (text "bus")
  let address ← parameter command_json (text "address")
  let reg ← parameter command_json (text "reg")
  if bus = -1 ∨ address = -1 ∨ reg = -1 then
    wrapReply (text "Invalid parameters")
  else
    readI2CRegister a bus address reg

/-- The branch `write_i2c_register`. -/
def handleWriteI2CRegister (a : Answers) (command_json : Json) : Handler Bytes := do
  let bus ← parameter command_json (text "bus")
  let address ← parameter command_json (text "address")
  let reg ← parameter command_json (text "reg")
  let value ← parameter command_json (text "val")
  if bus = -1 ∨ address = -1 ∨ reg = -1 ∨ value = -1 then
    wrapReply (text "Invalid parameters")
  else
    writeI2CRegister a bus address reg value
    wrapReply (text "ACK")

/-- The branch `read_memory_address`.  The first `catch` takes everything, the
second `std::runtime_error` only. -/
def handleReadMemoryAddress (p : Platform) (a : Answers) (command_json : Json) :
    Handler Bytes := do
  let address_str ← command_json.valueString (text "address") []
  if address_str = [] then
    wrapReply (text "Invalid address parameter")
  else
    let converted ← Proc.catching (do return some (← stoull address_str))
      fun _ => some (pure none)
    match converted with
    | none => wrapReply (text "Error converting address")
    | some address =>
        Proc.catching
          (do
            let value ← readMemoryAddress p a (BitVec.ofNat p.pointerBits address)
            let value_str ← Proc.sprintf 4 (twoHexDigits value.toNat)
            wrapReply value_str)
          fun
            | .runtimeError what => some (wrapReply (text "Error: " ++ what))
            | _ => none

def handleCommand (p : Platform) (a : Answers) (command_json : Json) : Handler Bytes := do
  let command ← command_json.valueString (text "command") []
  if command = text "get_app_version" then
    wrapReply version
  else if command = text "read_i2c_register" then
    handleReadI2CRegister a command_json
  else if command = text "write_i2c_register" then
    handleWriteI2CRegister a command_json
  else if command = text "read_disk_usage" then
    readDiskUsage a
  else if command = text "read_memory_usage" then
    readMemoryUsage a
  else if command = text "read_memory_address" then
    handleReadMemoryAddress p a command_json
  else
    wrapReply (text "Unknown command")

end CommandServer
