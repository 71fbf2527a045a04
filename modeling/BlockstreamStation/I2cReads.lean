import BlockstreamStation.I2cRequests

/-!
# Buffers and replies of an I2C read

`ReadI2CRegister` formats twice into buffers on its stack: the device name into
20 bytes and the byte it read into 3.  Neither length is checked, and the -1 of a
failed transfer is formatted like a byte.

* `readI2CRegister_wraps` — what the reply holds where both texts fit;
* `read_reported_iff` — when the reply to a read tells what was read;
* `device_name_fits_iff` — which bus numbers have a name that fits.
-/

namespace CommandServer

open CText JsonText Procedures Proc

/-! ## What a read reports -/

/-- A read that `HandleCommand` accepts. -/
structure AcceptedRead where
  json : Json
  bus : Int
  address : Int
  reg : Int
  request_eq : request? json = some (.read bus address reg)
  accepted : -1 ∉ (Request.read bus address reg).values

/-- Two lower-case hexadecimal digits that stand for a number. -/
def ReadsAsHex (result : Bytes) (n : Nat) : Prop :=
  ∃ high < 16, ∃ low < 16, n = 16 * high + low ∧
    result.map some = [(text "0123456789abcdef")[high]?, (text "0123456789abcdef")[low]?]

namespace AcceptedRead

/-- What is read back from the slave, when the transfer succeeds. -/
def byte (r : AcceptedRead) (m : Machine) : UInt8 :=
  m.devices r.bus r.address (UInt8.ofInt r.reg)

/-- A read is reported: the reply holds `Error` exactly when one of the calls
failed, and else the byte that was read; and what is formatted into `result` on
the way fits its three bytes. -/
structure Reported (r : AcceptedRead) (p : Platform) (a : Answers) (m : Machine) : Prop where
  replies : ∃ result reply m',
    dump [(text "command", text "ACK"), (text "result", result)] = some reply ∧
      handleCommand p a r.json m = (.returns reply, m') ∧
      (result = text "Error" ↔
        ¬ (a.openDevice = true ∧ a.setSlave = true ∧ a.transfer = true)) ∧
      (a.openDevice = true ∧ a.setSlave = true ∧ a.transfer = true →
        ReadsAsHex result (r.byte m).toNat)
  formats : a.openDevice = true → a.setSlave = true → ∀ data m₁ m₂,
    i2cSmbusReadByteData a ⟨r.bus, r.address⟩ (UInt8.ofInt r.reg) m₁ = (.returns data, m₂) →
      (twoHexDigits data).length + 1 ≤ 3

end AcceptedRead

/-- A byte prints as its two digits. -/
theorem twoHexDigits_byte (byte : UInt8) :
    twoHexDigits byte.toNat = [digit (byte.toNat / 16), digit (byte.toNat % 16)] := by
  have hlt : byte.toNat < 256 := byte.toNat_lt
  have hmod : ((byte.toNat : Int) % 2 ^ 32).toNat = byte.toNat := by omega
  rw [twoHexDigits, hmod, numeral]
  split
  · rename_i hzero
    rw [hzero]
    rfl
  · rename_i hpos
    by_cases hsmall : byte.toNat < 16
    · rw [Nat.digits_of_lt 16 _ hpos hsmall, Nat.div_eq_of_lt hsmall, Nat.mod_eq_of_lt hsmall]
      rfl
    · rw [Nat.digits_def' (by decide) (by omega),
        Nat.digits_of_lt 16 (byte.toNat / 16) (by omega) (by omega)]
      rfl

/-- The digits of `%x`. -/
theorem digit_eq_getElem? : ∀ d < 16, some (digit d) = (text "0123456789abcdef")[d]? := by
  decide

/-- Two hexadecimal digits read as the byte. -/
theorem readsAsHex_byte (byte : UInt8) : ReadsAsHex (twoHexDigits byte.toNat) byte.toNat := by
  have hlt : byte.toNat < 256 := byte.toNat_lt
  refine ⟨byte.toNat / 16, by omega, byte.toNat % 16, by omega, by omega, ?_⟩
  rw [twoHexDigits_byte, List.map_cons, List.map_cons, List.map_nil,
    digit_eq_getElem? _ (by omega), digit_eq_getElem? _ (by omega)]

/-- A read inside its buffers wraps the byte it read, or `Error`. -/
theorem readI2CRegister_wraps {a : Answers} {bus : Int} (address reg : Int)
    (hname : (deviceName bus).length < 20)
    (htransfer : a.openDevice = true → a.setSlave = true → a.transfer = true) (m : Machine) :
    ∃ m', readI2CRegister a bus address reg m =
      wrapReply
        (if a.openDevice = true ∧ a.setSlave = true then
          twoHexDigits (m.devices bus address (UInt8.ofInt reg)).toNat
        else text "Error") m' := by
  rw [readI2CRegister, bind_of_returns (sprintf_apply hname m), call_bind]
  cases hopen : a.openDevice with
  | false => exact ⟨m.logged (.openFile (deviceName bus) false), by simp⟩
  | true =>
      rw [if_pos rfl, call_bind]
      cases hslave : a.setSlave with
      | false => exact ⟨_, by rw [if_neg (by simp), call_bind, if_neg (by simp)]⟩
      | true =>
          rw [if_pos rfl, bind_of_returns (i2cSmbusReadByteData_eq _ _ _ _),
            htransfer hopen hslave, if_pos rfl, if_pos ⟨rfl, rfl⟩,
            bind_of_returns (sprintf_apply (by rw [length_twoHexDigits]; decide) _), call_bind]
          exact ⟨_, rfl⟩

namespace AcceptedRead

/-- An accepted read goes to `ReadI2CRegister`. -/
theorem handleCommand_json (r : AcceptedRead) (p : Platform) (a : Answers) (m : Machine) :
    handleCommand p a r.json m = readI2CRegister a r.bus r.address r.reg m := by
  rw [handleCommand_of_request r.request_eq, if_neg r.accepted]
  rfl

/-- The bus is an `int`. -/
theorem bus_lt (r : AcceptedRead) : r.bus < 2 ^ 31 := (bus_range_of_request r.request_eq).2

/-- What the formatted text fits when the transfer does not fail. -/
theorem formats_of_transfer {r : AcceptedRead} {a : Answers} (h : a.transfer = true) {data : Int}
    {m₁ m₂ : Machine}
    (hread : i2cSmbusReadByteData a ⟨r.bus, r.address⟩ (UInt8.ofInt r.reg) m₁ =
      (.returns data, m₂)) : (twoHexDigits data).length + 1 ≤ 3 := by
  rw [i2cSmbusReadByteData_eq, h, if_pos rfl] at hread
  obtain ⟨hdata, -⟩ := Prod.mk.inj hread
  rw [← Outcome.returns.inj hdata, length_twoHexDigits]

/-- Without a failing transfer the byte is reported. -/
theorem reported_of_transfer {r : AcceptedRead} {p : Platform} {a : Answers} {m : Machine}
    (hname : -1000000000 < r.bus)
    (htransfer : a.openDevice = true → a.setSlave = true → a.transfer = true) :
    r.Reported p a m := by
  refine ⟨?_, fun hopen hslave data m₁ m₂ hread =>
    formats_of_transfer (htransfer hopen hslave) hread⟩
  obtain ⟨m', hwraps⟩ := readI2CRegister_wraps r.address r.reg
    ((deviceName_fits r.bus_lt).mpr hname) htransfer m
  rw [← r.handleCommand_json p] at hwraps
  by_cases hsucceeds : a.openDevice = true ∧ a.setSlave = true
  · rw [if_pos hsucceeds] at hwraps
    obtain ⟨reply, hreply⟩ := wrapReply_ascii (ascii_twoHexDigits (r.byte m).toNat) m'
    have hall := htransfer hsucceeds.1 hsucceeds.2
    refine ⟨_, reply, m', ((wrapReply_yields _ m' reply m').mp hreply).1, hwraps.trans hreply, ?_,
      fun _ => readsAsHex_byte _⟩
    refine iff_of_false (fun heq => ?_) (not_not.mpr ⟨hsucceeds.1, hsucceeds.2, hall⟩)
    have hlength := congrArg List.length heq
    rw [length_twoHexDigits] at hlength
    cases hlength
  · rw [if_neg hsucceeds] at hwraps
    have hfailed : ¬ (a.openDevice = true ∧ a.setSlave = true ∧ a.transfer = true) :=
      fun h => hsucceeds ⟨h.1, h.2.1⟩
    exact ⟨text "Error", errorReply, m', rfl, hwraps, iff_of_true rfl hfailed,
      fun h => absurd h hfailed⟩

end AcceptedRead

/-- **Reads, exactly.**  The reply to an accepted read reports it if and only if
the device name fits its buffer and the transfer does not fail once device and
slave are there: the -1 of a failed transfer prints as eight digits into three
bytes, where the failures before it are answered with `Error`. -/
theorem read_reported_iff (r : AcceptedRead) (p : Platform) (a : Answers) (m : Machine) :
    r.Reported p a m ↔
      -1000000000 < r.bus ∧ (a.openDevice = true → a.setSlave = true → a.transfer = true) := by
  constructor
  · intro h
    obtain ⟨result, reply, m', -, hreturns, -⟩ := h.replies
    rw [r.handleCommand_json] at hreturns
    exact (readI2CRegister_completes r.bus_lt).mp ⟨reply, m', hreturns⟩
  · intro h
    exact AcceptedRead.reported_of_transfer h.1 h.2

/-- A read of register 0 of slave 80 on bus 1. -/
def readRegisterZero : AcceptedRead where
  json := .object [(text "command", .string (text "read_i2c_register")),
    (text "parameters", .object [(text "bus", .numberUnsigned 1),
      (text "address", .numberUnsigned 80), (text "reg", .numberUnsigned 0)])]
  bus := 1
  address := 80
  reg := 0
  request_eq := by decide +kernel
  accepted := by decide

/-- A slave that does not answer: its -1 takes eight digits, and the call is
undefined. -/
theorem readRegisterZero_overruns :
    (twoHexDigits (-1)).length + 1 = 9 ∧
      (handleCommand ⟨32, 4096⟩ { willing with transfer := false } readRegisterZero.json
        zeroMachine).1 = .undefined ∧
      ¬ readRegisterZero.Reported ⟨32, 4096⟩ { willing with transfer := false } zeroMachine := by
  have hundefined : (handleCommand ⟨32, 4096⟩ { willing with transfer := false }
      readRegisterZero.json zeroMachine).1 = .undefined := by decide +kernel
  refine ⟨by decide, hundefined, fun h => ?_⟩
  obtain ⟨result, reply, m', -, hreturns, -⟩ := h.replies
  rw [hreturns] at hundefined
  cases hundefined

/-! ## Device names -/

/-- A bus number that the check lets through. -/
def LetThrough (bus : Int) : Prop :=
  ∃ j r, request? j = some r ∧ -1 ∉ r.values ∧ r.bus = bus

/-- A read on a bus, of slave 0 and register 0. -/
def readOnBus (bus : Int64) : IntegerRequest where
  command := .read
  members := [(text "command", .string (text "read_i2c_register")),
    (text "parameters", .object [(text "bus", .numberInteger bus),
      (text "address", .numberUnsigned 0), (text "reg", .numberUnsigned 0)])]
  parameters := [(text "bus", .numberInteger bus), (text "address", .numberUnsigned 0),
    (text "reg", .numberUnsigned 0)]
  number key := if key = text "bus" then .signed bus else .unsigned 0
  command_eq := rfl
  parameters_eq := rfl
  number_eq := by
    simp only [I2cCommand.parameters, List.forall_mem_cons]
    exact ⟨rfl, rfl, rfl, by simp⟩

/-- The request of the example. -/
theorem request?_readOnBus (bus : Int64) :
    request? (readOnBus bus).json = some (.read (toInt32 bus.toInt) 0 0) :=
  (readOnBus bus).request?_json

/-- The check lets through every `int` but -1. -/
theorem letThrough_iff {bus : Int} :
    LetThrough bus ↔ (-2 ^ 31 ≤ bus ∧ bus < 2 ^ 31) ∧ bus ≠ -1 := by
  constructor
  · intro h
    obtain ⟨j, r, hr, haccepted, rfl⟩ := h
    exact ⟨bus_range_of_request hr, fun heq => haccepted (heq ▸ r.bus_mem_values)⟩
  · intro h
    obtain ⟨hrange, hne⟩ := h
    have hbus : toInt32 (Int64.ofInt bus).toInt = bus := by
      rw [Int64.toInt_ofInt_of_le (by omega) (by omega)]
      exact toInt32_of_fits hrange
    refine ⟨(readOnBus (Int64.ofInt bus)).json, .read bus 0 0, ?_, ?_, rfl⟩
    · rw [request?_readOnBus, hbus]
    · simp [Request.values, @eq_comm Int (-1), hne]

/-- **Device names, exactly.**  The name of a bus that the check lets through fits
`filename` with its terminator if and only if the number has less than ten digits
or no minus sign. -/
theorem device_name_fits_iff (bus : Int) (h : LetThrough bus) :
    (deviceName bus).length + 1 ≤ 20 ↔ -1000000000 < bus :=
  deviceName_fits (letThrough_iff.mp h).1.2

/-- The last bus of a signed 32-bit number. -/
theorem device_name_of_last_bus :
    LetThrough 2147483647 ∧ (deviceName 2147483647).length + 1 ≤ 20 := by
  have hlet : LetThrough 2147483647 := letThrough_iff.mpr (by decide)
  exact ⟨hlet, (device_name_fits_iff _ hlet).mpr (by decide)⟩

/-- A bus with ten digits and a minus sign takes one byte more than there is. -/
theorem device_name_overruns :
    LetThrough (-1000000000) ∧ (deviceName (-1000000000)).length + 1 = 21 :=
  ⟨letThrough_iff.mpr (by decide), by decide +kernel⟩

end CommandServer
