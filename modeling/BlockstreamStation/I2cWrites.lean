import BlockstreamStation.LabelledRuns
import BlockstreamStation.ServerRun

/-!
# Acknowledged I2C writes

A client sees of an I2C write only the reply, and the server replies `ACK`
whatever `WriteI2CRegister` did: each of its three early returns is silent.
This file compares the registers with the acknowledged writes, along every run
of the server on I2C requests.

* `writeI2CRegister_devices` — a write that returns stores its byte exactly when
  the open, the slave address and the transfer all succeeded;
* `handleCommand_write`, `handleCommand_read` — what each request replies and
  leaves in the registers;
* `writes_kept_iff` — all along a run every register holds the value of the
  last write to it that was acknowledged, if and only if no write fails that
  would have changed its register, no device name overruns its buffer, and no
  read fails at the transfer.
-/

namespace CommandServer

open CText JsonText Procedures Proc LabelledRuns

/-! ## Requests -/

/-- An I2C request, by the numbers its branch of `HandleCommand` reads. -/
inductive Request where
  | read (bus address reg : Int)
  | write (bus address reg value : Int)
deriving DecidableEq

/-- The I2C request a JSON value makes, if it is one. -/
def request? (command_json : Json) : Option Request := do
  let command ← command? command_json
  if command = text "read_i2c_register" then
    let bus ← parameter? command_json (text "bus")
    let address ← parameter? command_json (text "address")
    let reg ← parameter? command_json (text "reg")
    return .read bus address reg
  else if command = text "write_i2c_register" then
    let bus ← parameter? command_json (text "bus")
    let address ← parameter? command_json (text "address")
    let reg ← parameter? command_json (text "reg")
    let value ← parameter? command_json (text "val")
    return .write bus address reg value
  else none

/-- Registers and values are bytes. -/
def Request.InRange : Request → Prop
  | .read _ _ reg => 0 ≤ reg ∧ reg ≤ 255
  | .write _ _ reg value => (0 ≤ reg ∧ reg ≤ 255) ∧ 0 ≤ value ∧ value ≤ 255

instance : (r : Request) → Decidable r.InRange
  | .read _ _ reg => inferInstanceAs (Decidable (0 ≤ reg ∧ reg ≤ 255))
  | .write _ _ reg value =>
      inferInstanceAs (Decidable ((0 ≤ reg ∧ reg ≤ 255) ∧ 0 ≤ value ∧ value ≤ 255))

/-- A request reads or writes, and its parameters are those of the message. -/
theorem request?_cases {j : Json} {r : Request} (h : request? j = some r) :
    (∃ bus address reg, r = .read bus address reg ∧
      command? j = some (text "read_i2c_register") ∧
      parameter? j (text "bus") = some bus ∧ parameter? j (text "address") = some address ∧
      parameter? j (text "reg") = some reg) ∨
    ∃ bus address reg value, r = .write bus address reg value ∧
      command? j = some (text "write_i2c_register") ∧
      parameter? j (text "bus") = some bus ∧ parameter? j (text "address") = some address ∧
      parameter? j (text "reg") = some reg ∧ parameter? j (text "val") = some value := by
  obtain ⟨command, hcommand, h⟩ := Option.bind_eq_some_iff.mp h
  split at h
  · rename_i hread
    obtain ⟨bus, hbus, h⟩ := Option.bind_eq_some_iff.mp h
    obtain ⟨address, haddress, h⟩ := Option.bind_eq_some_iff.mp h
    obtain ⟨reg, hreg, h⟩ := Option.bind_eq_some_iff.mp h
    exact .inl ⟨bus, address, reg, (Option.some.inj h).symm, hread ▸ hcommand, hbus, haddress,
      hreg⟩
  · split at h
    · rename_i hwrite
      obtain ⟨bus, hbus, h⟩ := Option.bind_eq_some_iff.mp h
      obtain ⟨address, haddress, h⟩ := Option.bind_eq_some_iff.mp h
      obtain ⟨reg, hreg, h⟩ := Option.bind_eq_some_iff.mp h
      obtain ⟨value, hvalue, h⟩ := Option.bind_eq_some_iff.mp h
      exact .inr ⟨bus, address, reg, value, (Option.some.inj h).symm, hwrite ▸ hcommand, hbus,
        haddress, hreg, hvalue⟩
    · cases h

/-! ## What a request does to the registers -/

/-- A call by itself leaves the registers of the devices. -/
theorem keeps_call (c : SysCall) : Keeps Machine.devices (call c) := by
  intro m u m' heq
  cases heq
  rfl

/-- So does `WrapReply`. -/
theorem keeps_wrapReply (result : Bytes) : Keeps Machine.devices (wrapReply result) :=
  (wrapReply_yields result).keeps

/-- A read leaves them. -/
theorem readI2CRegister_keeps (a : Answers) (bus address reg : Int) :
    Keeps Machine.devices (readI2CRegister a bus address reg) := by
  have hread : Keeps Machine.devices
      (i2cSmbusReadByteData a ⟨bus, address⟩ (UInt8.ofInt reg)) := by
    intro m data m' h
    rw [i2cSmbusReadByteData_eq] at h
    rw [← (Prod.mk.inj h).2]
    rfl
  refine keeps_bind (yields_sprintf _ _).keeps fun _ => keeps_bind (keeps_call _) fun _ => ?_
  refine keeps_ite (keeps_bind (keeps_call _) fun _ => ?_) (keeps_wrapReply _)
  refine keeps_ite ?_ (keeps_bind (keeps_call _) fun _ => keeps_wrapReply _)
  exact keeps_bind hread fun _ => keeps_bind (yields_sprintf _ _).keeps fun _ =>
    keeps_bind (keeps_call _) fun _ => keeps_wrapReply _

/-- A write that returns has stored its byte exactly when all three calls
succeeded. -/
theorem writeI2CRegister_devices {a : Answers} {bus address reg value : Int} {m m' : Machine}
    {u : Unit} (h : writeI2CRegister a bus address reg value m = (.returns u, m')) :
    m'.devices =
      if a.openDevice = true ∧ a.setSlave = true ∧ a.transfer = true then
        (m.store bus address (UInt8.ofInt reg) (UInt8.ofInt value)).devices
      else m.devices := by
  obtain ⟨filename, m₁, hname, hbody⟩ := returns_bind.mp h
  clear h
  obtain ⟨-, rfl⟩ := (yields_sprintf 20 (deviceName bus) m filename m₁).mp hname
  obtain ⟨_, m₂, ⟨⟩, h⟩ := returns_bind.mp hbody
  cases hopen : a.openDevice with
  | false =>
      rw [hopen] at h
      cases h
      simp
  | true =>
      rw [hopen, if_pos rfl] at h
      obtain ⟨_, m₃, ⟨⟩, h⟩ := returns_bind.mp h
      cases hslave : a.setSlave with
      | false =>
          rw [hslave] at h
          cases h
          simp
      | true =>
          rw [hslave, if_pos rfl] at h
          obtain ⟨result, m₄, hsmbus, h⟩ := returns_bind.mp h
          rw [i2cSmbusWriteByteData_eq] at hsmbus
          have hclosed : m'.devices = m₄.devices :=
            keeps_ite (keeps_call .closeFile) (keeps_call .closeFile) m₄ u m' h
          rw [hclosed, ← (Prod.mk.inj hsmbus).2]
          cases a.transfer with
          | false => simp [Machine.logged]
          | true => simp [Machine.logged, Machine.store]

/-! ## What a request replies -/

/-- The reply with the result `ACK`. -/
def ackReply : Bytes := text "\x7b\"command\":\"ACK\",\"result\":\"ACK\"\x7d"

/-- The acknowledgement. -/
theorem wrapReply_ack (m : Machine) : wrapReply (text "ACK") m = (.returns ackReply, m) := rfl

/-- The reply to refused parameters is not the acknowledgement. -/
theorem wrapReply_invalid_ne_ack {m m' : Machine} {reply : Bytes}
    (h : wrapReply (text "Invalid parameters") m = (.returns reply, m')) : reply ≠ ackReply := by
  have hreply : some reply = dump [(text "command", text "ACK"),
      (text "result", text "Invalid parameters")] :=
    ((wrapReply_yields _ m reply m').mp h).1.symm
  intro heq
  subst heq
  revert hreply
  decide

section Replies

variable {p : Platform} {a : Answers} {j : Json} {m m' : Machine} {reply : Bytes}

/-- `read_i2c_register` goes to its branch. -/
theorem handleCommand_eq_of_read
    (hcommand : command? j = some (text "read_i2c_register")) :
    handleCommand p a j m = handleReadI2CRegister a j m := by
  have hvalue := (valueString_yields j (text "command") [] m _ m).mpr ⟨hcommand, rfl⟩
  rw [handleCommand, bind_of_returns hvalue, if_neg (by decide), if_pos rfl]

/-- `write_i2c_register` goes to its branch. -/
theorem handleCommand_eq_of_write
    (hcommand : command? j = some (text "write_i2c_register")) :
    handleCommand p a j m = handleWriteI2CRegister a j m := by
  have hvalue := (valueString_yields j (text "command") [] m _ m).mpr ⟨hcommand, rfl⟩
  rw [handleCommand, bind_of_returns hvalue, if_neg (by decide), if_neg (by decide), if_pos rfl]

/-- A read leaves the registers alone. -/
theorem handleCommand_read
    (hcommand : command? j = some (text "read_i2c_register"))
    (h : handleCommand p a j m = (.returns reply, m')) : m'.devices = m.devices := by
  have hkeeps : Keeps Machine.devices (handleReadI2CRegister a j) :=
    keeps_bind (parameter_yields _ _).keeps fun _ => keeps_bind (parameter_yields _ _).keeps
      fun _ => keeps_bind (parameter_yields _ _).keeps fun _ =>
        keeps_ite (keeps_wrapReply _) (readI2CRegister_keeps _ _ _ _)
  rw [handleCommand_eq_of_read hcommand] at h
  exact hkeeps m reply m' h

/-- A write whose parameters are accepted is acknowledged in any case, and
stored when the three calls succeed; one that is refused does nothing. -/
theorem handleCommand_write {bus address reg value : Int}
    (hcommand : command? j = some (text "write_i2c_register"))
    (hbus : parameter? j (text "bus") = some bus)
    (haddress : parameter? j (text "address") = some address)
    (hreg : parameter? j (text "reg") = some reg)
    (hvalue : parameter? j (text "val") = some value)
    (h : handleCommand p a j m = (.returns reply, m')) :
    if bus = -1 ∨ address = -1 ∨ reg = -1 ∨ value = -1 then
      reply ≠ ackReply ∧ m'.devices = m.devices
    else
      reply = ackReply ∧ m'.devices =
        if a.openDevice = true ∧ a.setSlave = true ∧ a.transfer = true then
          (m.store bus address (UInt8.ofInt reg) (UInt8.ofInt value)).devices
        else m.devices := by
  rw [handleCommand_eq_of_write hcommand, handleWriteI2CRegister,
    bind_of_returns ((parameter_yields j _ m _ m).mpr ⟨hbus, rfl⟩),
    bind_of_returns ((parameter_yields j _ m _ m).mpr ⟨haddress, rfl⟩),
    bind_of_returns ((parameter_yields j _ m _ m).mpr ⟨hreg, rfl⟩),
    bind_of_returns ((parameter_yields j _ m _ m).mpr ⟨hvalue, rfl⟩)] at h
  split
  · rename_i hinvalid
    rw [if_pos hinvalid] at h
    exact ⟨wrapReply_invalid_ne_ack h, keeps_wrapReply _ m reply m' h⟩
  · rename_i hvalid
    rw [if_neg hvalid] at h
    obtain ⟨u, m₁, hwrite, hack⟩ := returns_bind.mp h
    rw [wrapReply_ack] at hack
    obtain ⟨hreply, rfl⟩ := Prod.mk.inj hack
    exact ⟨(Outcome.returns.inj hreply).symm, writeI2CRegister_devices hwrite⟩

end Replies

/-! ## Acknowledged writes -/

/-- A byte written to a register. -/
structure Write where
  bus : Int
  address : Int
  register : UInt8
  value : UInt8

/-- The write that a request asks for, when its reply acknowledges it. -/
def acknowledgedWrite (parse : Bytes → Option Json) (message reply : Bytes) : Option Write :=
  match (parse message).bind request? with
  | some (.write bus address reg value) =>
      if reply = ackReply then some ⟨bus, address, UInt8.ofInt reg, UInt8.ofInt value⟩ else none
  | _ => none

/-- The acknowledged writes of a log, the oldest first; `pending` is the request
that waits for its reply. -/
def acknowledgedWrites (parse : Bytes → Option Json) : Option Bytes → List Event → List Write
  | _, [] => []
  | _, .received message :: rest => acknowledgedWrites parse (some message) rest
  | pending, .sent reply :: rest =>
      (pending.bind (acknowledgedWrite parse · reply)).toList ++ acknowledgedWrites parse none rest

/-- The value of the last write to a register. -/
def lastWrite (writes : List Write) (bus address : Int) (register : UInt8) : Option UInt8 :=
  (writes.filter fun w => bus = w.bus ∧ address = w.address ∧ register = w.register).getLast?.map
    Write.value

/-- The server is at `recv`, and every register holds the value of the last
acknowledged write to it, or what it held at first. -/
def WritesKept (parse : Bytes → Option Json) (initial : Machine) (s : Server) : Prop :=
  s.status = .atRecv ∧ ∀ bus address register,
    s.machine.devices bus address register =
      (lastWrite (acknowledgedWrites parse none s.events) bus address register).getD
        (initial.devices bus address register)

/-- What keeps the next request from losing a write or stopping the server: the
device name fits; a write succeeds in all three calls, or its register holds the
value already; a read does not fail at the transfer.  Requests with a bus or an
address of -1 are refused. -/
def Request.Safe (a : Answers) (m : Machine) : Request → Prop
  | .read bus address _ =>
      bus = -1 ∨ address = -1 ∨
        -1000000000 < bus ∧ (a.openDevice = true → a.setSlave = true → a.transfer = true)
  | .write bus address reg value =>
      bus = -1 ∨ address = -1 ∨
        -1000000000 < bus ∧
          ((a.openDevice = true ∧ a.setSlave = true ∧ a.transfer = true) ∨
            m.devices bus address (UInt8.ofInt reg) = UInt8.ofInt value)

/-- The guard on the next pass of the loop. -/
def SafeArrival (parse : Bytes → Option Json) (s : Server) : Arrival → Prop
  | .failure => True
  | .message bytes a => ∀ r, (parse bytes).bind request? = some r → r.Safe a s.machine

/-- A message with an I2C request whose register and value are bytes. -/
def I2cArrival (parse : Bytes → Option Json) : Arrival → Prop
  | .failure => True
  | .message bytes _ => ∃ r, (parse bytes).bind request? = some r ∧ r.InRange

section Kept

variable {parse : Bytes → Option Json} {p : Platform} {initial : Machine}

/-- A request and its reply add the write they acknowledge, if they do. -/
theorem acknowledgedWrites_exchange (message reply : Bytes) (events : List Event) :
    ∀ pending, acknowledgedWrites parse pending (events ++ [.received message, .sent reply]) =
      acknowledgedWrites parse pending events ++
        (acknowledgedWrite parse message reply).toList := by
  induction events with
  | nil => intro pending; simp [acknowledgedWrites]
  | cons event rest ih =>
      intro pending
      cases event with
      | received earlier => exact ih (some earlier)
      | sent earlier => simp [acknowledgedWrites, ih]

/-- The last write to a register is the new one, if it is to that register. -/
theorem lastWrite_snoc (writes : List Write) (w : Write) (bus address : Int)
    (register : UInt8) :
    lastWrite (writes ++ [w]) bus address register =
      if bus = w.bus ∧ address = w.address ∧ register = w.register then some w.value
      else lastWrite writes bus address register := by
  unfold lastWrite
  by_cases h : bus = w.bus ∧ address = w.address ∧ register = w.register <;> simp [h]

/-- After an exchange the acknowledged writes are kept exactly when the
registers changed by the write that was acknowledged, if any. -/
theorem writesKept_exchange {s : Server} {m : Machine} {message reply : Bytes}
    (h : WritesKept parse initial s) :
    WritesKept parse initial
        { s with machine := m, events := s.events ++ [.received message, .sent reply] } ↔
      m.devices =
        match acknowledgedWrite parse message reply with
        | none => s.machine.devices
        | some w => (s.machine.store w.bus w.address w.register w.value).devices := by
  obtain ⟨hstatus, hdevices⟩ := h
  unfold WritesKept
  rw [acknowledgedWrites_exchange, and_iff_right hstatus]
  simp only [funext_iff]
  refine forall_congr' fun bus => forall_congr' fun address => forall_congr' fun register => ?_
  cases acknowledgedWrite parse message reply with
  | none => simp [hdevices bus address register]
  | some w =>
      simp only [Option.toList_some, lastWrite_snoc, Machine.store]
      split
      · rfl
      · rw [hdevices bus address register]

end Kept

/-- Storing changes nothing exactly if the register holds the value. -/
theorem devices_eq_store_iff {m : Machine} {bus address : Int} {register value : UInt8} :
    m.devices = (m.store bus address register value).devices ↔
      m.devices bus address register = value := by
  constructor
  · intro h
    rw [h]
    simp [Machine.store]
  · intro h
    funext b a r
    simp only [Machine.store]
    split
    · rename_i hsame
      obtain ⟨rfl, rfl, rfl⟩ := hsame
      exact h
    · rfl

/-- A read request is answered unless the device name overruns its buffer or the
transfer fails. -/
theorem answerable_read_iff {a : Answers} {j : Json} {bus address reg : Int}
    (hcommand : command? j = some (text "read_i2c_register"))
    (hbus : parameter? j (text "bus") = some bus)
    (haddress : parameter? j (text "address") = some address)
    (hreg : parameter? j (text "reg") = some reg) :
    Answerable a j ↔ (¬ (bus = -1 ∨ address = -1 ∨ reg = -1) →
      -1000000000 < bus ∧ (a.openDevice = true → a.setSlave = true → a.transfer = true)) := by
  constructor
  · intro hparts
    obtain ⟨command, hfound, h⟩ := hparts
    obtain rfl := Option.some.inj (hcommand.symm.trans hfound)
    obtain ⟨bus', address', reg', hbus', haddress', hreg', h⟩ := h
    obtain rfl := Option.some.inj (hbus.symm.trans hbus')
    obtain rfl := Option.some.inj (haddress.symm.trans haddress')
    obtain rfl := Option.some.inj (hreg.symm.trans hreg')
    exact h
  · intro h
    exact ⟨text "read_i2c_register", hcommand, bus, address, reg, hbus, haddress, hreg, h⟩

/-- A write request is answered unless the device name overruns its buffer. -/
theorem answerable_write_iff {a : Answers} {j : Json} {bus address reg value : Int}
    (hcommand : command? j = some (text "write_i2c_register"))
    (hbus : parameter? j (text "bus") = some bus)
    (haddress : parameter? j (text "address") = some address)
    (hreg : parameter? j (text "reg") = some reg)
    (hvalue : parameter? j (text "val") = some value) :
    Answerable a j ↔
      (¬ (bus = -1 ∨ address = -1 ∨ reg = -1 ∨ value = -1) → -1000000000 < bus) := by
  constructor
  · intro hparts
    obtain ⟨command, hfound, h⟩ := hparts
    obtain rfl := Option.some.inj (hcommand.symm.trans hfound)
    obtain ⟨bus', address', reg', value', hbus', haddress', hreg', hvalue', h⟩ := h
    obtain rfl := Option.some.inj (hbus.symm.trans hbus')
    obtain rfl := Option.some.inj (haddress.symm.trans haddress')
    obtain rfl := Option.some.inj (hreg.symm.trans hreg')
    obtain rfl := Option.some.inj (hvalue.symm.trans hvalue')
    exact h
  · intro h
    exact ⟨text "write_i2c_register", hcommand, bus, address, reg, value, hbus, haddress, hreg,
      hvalue, h⟩

section Steps

variable {parse : Bytes → Option Json} {p : Platform} {initial : Machine}

/-- A message whose request is answered: the registers decide whether the
acknowledged writes are kept. -/
theorem writesKept_serve {s : Server} {a : Answers} {message : Bytes} {j : Json}
    (hparse : parse message = some j) (hs : WritesKept parse initial s)
    (hanswer : Answerable a j) :
    ∃ reply m, handleCommand p a j s.machine = (.returns reply, m) ∧
      (WritesKept parse initial (serve parse p s (.message message a)) ↔
        m.devices =
          match acknowledgedWrite parse message reply with
          | none => s.machine.devices
          | some w => (s.machine.store w.bus w.address w.register w.value).devices) := by
  obtain ⟨reply, m, hhandle⟩ := handleCommand_completes (p := p) (m := s.machine) |>.mpr hanswer
  have hrespond : respond parse p a message s.machine = (.returns reply, m) := by
    rw [respond, bind_of_returns ((parseMessage_yields message _ _ _).mpr ⟨hparse, rfl⟩), hhandle]
  refine ⟨reply, m, hhandle, ?_⟩
  rw [serve, hrespond]
  exact writesKept_exchange hs

/-- A message whose request is not answered stops the server. -/
theorem not_writesKept_serve {s : Server} {a : Answers} {message : Bytes} {j : Json}
    (hparse : parse message = some j) (hanswer : ¬ Answerable a j) :
    ¬ WritesKept parse initial (serve parse p s (.message message a)) := by
  intro hparts
  obtain ⟨hstatus, -⟩ := hparts
  refine serve_fails ?_ hstatus
  intro hparts
  obtain ⟨j', hparse', hanswer'⟩ := hparts
  obtain rfl := Option.some.inj (hparse.symm.trans hparse')
  exact hanswer hanswer'

/-- Serving a read keeps the writes. -/
theorem serve_read_iff {s : Server} {a : Answers} {message : Bytes} {j : Json}
    {bus address reg : Int} (hparse : parse message = some j)
    (hr : request? j = some (.read bus address reg))
    (hrange : Request.InRange (.read bus address reg)) (hs : WritesKept parse initial s) :
    WritesKept parse initial (serve parse p s (.message message a)) ↔
      Request.Safe a s.machine (.read bus address reg) := by
  obtain ⟨_, _, _, ⟨⟩, hcommand, hbus, haddress, hreg⟩ | ⟨_, _, _, _, ⟨⟩, -⟩ := request?_cases hr
  have hanswer := answerable_read_iff (a := a) hcommand hbus haddress hreg
  have hsafe : Answerable a j ↔ Request.Safe a s.machine (.read bus address reg) := by
    have hne : reg ≠ -1 := by have := hrange.1; omega
    rw [hanswer]
    unfold Request.Safe
    grind
  rw [← hsafe]
  by_cases h : Answerable a j
  · obtain ⟨reply, m, hhandle, hkept⟩ := writesKept_serve (p := p) hparse hs h
    have hnone : acknowledgedWrite parse message reply = none := by
      simp [acknowledgedWrite, hparse, hr]
    rw [hkept, hnone]
    exact iff_of_true (handleCommand_read hcommand hhandle) h
  · exact iff_of_false (not_writesKept_serve hparse h) h

/-- Serving a write keeps them exactly under the guard of the step. -/
theorem serve_write_iff {s : Server} {a : Answers} {message : Bytes} {j : Json}
    {bus address reg value : Int} (hparse : parse message = some j)
    (hr : request? j = some (.write bus address reg value))
    (hrange : Request.InRange (.write bus address reg value)) (hs : WritesKept parse initial s) :
    WritesKept parse initial (serve parse p s (.message message a)) ↔
      Request.Safe a s.machine (.write bus address reg value) := by
  obtain ⟨_, _, _, ⟨⟩, -⟩ | ⟨_, _, _, _, ⟨⟩, hcommand, hbus, haddress, hreg, hvalue⟩ :=
    request?_cases hr
  obtain ⟨⟨hreg0, -⟩, hvalue0, -⟩ := hrange
  have hanswer := answerable_write_iff (a := a) hcommand hbus haddress hreg hvalue
  by_cases h : Answerable a j
  · obtain ⟨reply, m, hhandle, hkept⟩ := writesKept_serve (p := p) hparse hs h
    have heffect := handleCommand_write hcommand hbus haddress hreg hvalue hhandle
    rw [hkept]
    split at heffect
    · rename_i hrefused
      obtain ⟨hreply, hdevices⟩ := heffect
      have hnone : acknowledgedWrite parse message reply = none := by
        simp [acknowledgedWrite, hparse, hr, hreply]
      rw [hnone]
      refine iff_of_true hdevices ?_
      unfold Request.Safe
      omega
    · rename_i haccepted
      obtain ⟨rfl, hdevices⟩ := heffect
      have hsome : acknowledgedWrite parse message ackReply =
          some ⟨bus, address, UInt8.ofInt reg, UInt8.ofInt value⟩ := by
        simp [acknowledgedWrite, hparse, hr]
      have hbus' : -1000000000 < bus := hanswer.mp h haccepted
      rw [hsome, hdevices]
      unfold Request.Safe
      split
      · rename_i hall
        exact iff_of_true rfl (.inr (.inr ⟨hbus', .inl hall⟩))
      · rename_i hfailed
        rw [devices_eq_store_iff]
        grind
  · refine iff_of_false (not_writesKept_serve hparse h) fun hsafe => h ?_
    rw [hanswer]
    unfold Request.Safe at hsafe
    omega

/-- A pass of the loop keeps the acknowledged writes exactly when it is safe. -/
theorem writesKept_serveStep {s s' : Server} {arrival : Arrival}
    (harrival : I2cArrival parse arrival) (hs : WritesKept parse initial s)
    (hstep : serveStep parse p s arrival = some s') :
    WritesKept parse initial s' ↔ SafeArrival parse s arrival := by
  rw [serveStep, if_pos hs.1] at hstep
  obtain rfl := Option.some.inj hstep
  cases arrival with
  | failure => exact iff_of_true hs trivial
  | message bytes a =>
      obtain ⟨r, hr, hrange⟩ := harrival
      have hsafe : SafeArrival parse s (.message bytes a) ↔ r.Safe a s.machine := by
        constructor
        · intro h
          exact h r hr
        · intro h r' hr'
          obtain rfl := Option.some.inj (hr.symm.trans hr')
          exact h
      obtain ⟨j, hparse, hrequest⟩ := Option.bind_eq_some_iff.mp hr
      rw [hsafe]
      cases r with
      | read bus address reg => exact serve_read_iff hparse hrequest hrange hs
      | write bus address reg value => exact serve_write_iff hparse hrequest hrange hs

end Steps

/-- All along a run of I2C requests every register holds the value of the last
acknowledged write to it, exactly when every request of the run is safe in the
state it meets. -/
theorem writes_kept_iff (parse : Bytes → Option Json) (p : Platform) (machine : Machine)
    (arrivals : List Arrival) (harrivals : ∀ arrival ∈ arrivals, I2cArrival parse arrival) :
    Always (serveStep parse p) (WritesKept parse machine) (start machine) arrivals ↔
      Guarded (serveStep parse p) (SafeArrival parse) (start machine) arrivals := by
  have hstart : WritesKept parse machine (start machine) := ⟨rfl, fun _ _ _ => rfl⟩
  refine always_iff_guarded (fun s hs => hs) ?_ ?_ arrivals (start machine) hstart harrivals
  · intro s arrival s' harrival hs hstep hsafe
    exact (writesKept_serveStep harrival hs hstep).mpr hsafe
  · intro s arrival s' harrival hs hstep hunsafe hkept
    exact hunsafe ((writesKept_serveStep harrival hs hstep).mp hkept)

/-- A write of 1 to register 16 of the device at address 80 on bus 1. -/
def writeRequest : Bytes :=
  text "\x7b\"command\":\"write_i2c_register\",\"parameters\":" ++
    text "\x7b\"bus\":1,\"address\":80,\"reg\":16,\"val\":1\x7d\x7d"

def parseWriteRequest (message : Bytes) : Option Json :=
  if message = writeRequest then
    some (.object [
      (text "command", .string (text "write_i2c_register")),
      (text "parameters", .object [
        (text "bus", .numberUnsigned 1),
        (text "address", .numberUnsigned 80),
        (text "reg", .numberUnsigned 16),
        (text "val", .numberUnsigned 1)])])
  else none

/-- The request of the run below. -/
theorem request_writeRequest :
    (parseWriteRequest writeRequest).bind request? = some (.write 1 80 16 1) := by
  decide +kernel

/-- On a system where every call succeeds, a write is kept along its run. -/
theorem writes_kept_willing :
    Always (serveStep parseWriteRequest ⟨32, 4096⟩) (WritesKept parseWriteRequest zeroMachine)
      (start zeroMachine) [.message writeRequest willing] := by
  refine (writes_kept_iff parseWriteRequest ⟨32, 4096⟩ zeroMachine _ ?_).mpr ?_
  · intro arrival h
    obtain rfl := List.mem_singleton.mp h
    exact ⟨_, request_writeRequest, by decide⟩
  · rw [guarded_cons]
    intro s' _
    refine ⟨fun r hr => ?_, guarded_nil⟩
    obtain rfl := Option.some.inj (request_writeRequest.symm.trans hr)
    exact .inr (.inr ⟨by decide, .inl (by decide)⟩)

/-- When the bus device cannot be opened, the write is acknowledged and lost. -/
theorem acknowledged_write_lost :
    let arrival := Arrival.message writeRequest { willing with openDevice := false }
    let s := run parseWriteRequest ⟨32, 4096⟩ (start zeroMachine) [arrival]
    I2cArrival parseWriteRequest arrival ∧
      s.events = [.received writeRequest, .sent ackReply] ∧
      ¬ WritesKept parseWriteRequest zeroMachine s := by
  intro arrival s
  have hevents : s.events = [.received writeRequest, .sent ackReply] := by
    decide +kernel
  have hdevice : s.machine.devices 1 80 16 = 0 := by
    decide +kernel
  have hlast : lastWrite (acknowledgedWrites parseWriteRequest none
      [.received writeRequest, .sent ackReply]) 1 80 16 = some 1 := by
    decide +kernel
  refine ⟨⟨_, request_writeRequest, by decide⟩, hevents, ?_⟩
  intro hparts
  obtain ⟨-, hkept⟩ := hparts
  have hregister := hkept 1 80 16
  rw [hevents, hlast, hdevice] at hregister
  exact absurd hregister (by decide)

end CommandServer
