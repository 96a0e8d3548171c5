import FuguexPeripheral.Runs
import FuguexPeripheral.Polling.Handler
import FuguexPeripheral.V850.SocketCan

/-!
# The V850 RSCAN peripheral

Model of `src/v850/rscan.rs`: a CAN controller behind memory-mapped registers. Frames
come from an open socket (vcan mode) or from a queue that the user of the emulator
fills (queued mode); a read of a register first refreshes its bytes in memory.

* Only the two constructors set the mode, and only queued mode accepts messages, so the
  queue of a peripheral in vcan mode is empty: `RSCan` carries that as a field.
* A panic is `Except.error`. An access that returns `Err` keeps what it did before.
* `handle_input` and `handle_output` do not look at the size of the access, which is left
  out, and so are the log lines.
-/

namespace FuguexPeripheral.V850

open ByteStore

/-! ## Registers -/

/-- The registers of channel 0 that the source names. -/
inductive Reg
  | cfpctr0 | cfid0 | cfptr0 | cfdf00 | cfdf10
  | c0sts | c0erfl | txqpctr0
  | tmc0 | tmid0 | tmptr0 | tmdf00 | tmdf10 | tmsts0
  | rmnd0 | rmid0 | rmptr0 | rmdf00 | rmdf10
  | rfid0 | rfsts0 | rfdf00 | rfdf10 | rfptr0 | rfpctr0
  | gsts
  deriving DecidableEq, Repr

/-- The keys of `regisiters`. -/
def Reg.all : List Reg :=
  [cfpctr0, cfid0, cfptr0, cfdf00, cfdf10, c0sts, c0erfl, txqpctr0, tmc0, tmid0, tmptr0, tmdf00,
    tmdf10, tmsts0, rmnd0, rmid0, rmptr0, rmdf00, rmdf10, rfid0, rfsts0, rfdf00, rfdf10, rfptr0,
    rfpctr0, gsts]

def base : Address := 0xffd00000

/-- `get_peripheral_regs`. -/
def Reg.addr : Reg → Address
  | cfpctr0 => base + 0x01d8
  | cfid0 => base + 0x0e80
  | cfptr0 => base + 0x0e84
  | cfdf00 => base + 0x0e88
  | cfdf10 => base + 0x0e8c
  | c0sts => base + 0x0008
  | c0erfl => base + 0x000c
  | txqpctr0 => base + 0x03e0
  | tmc0 => base + 0x0250
  | tmid0 => base + 0x1000
  | tmptr0 => base + 0x1004
  | tmdf00 => base + 0x1008
  | tmdf10 => base + 0x100c
  | tmsts0 => base + 0x02d0
  | rmnd0 => base + 0x00a8
  | rmid0 => base + 0x0600
  | rmptr0 => base + 0x0604
  | rmdf00 => base + 0x0608
  | rmdf10 => base + 0x060c
  | rfid0 => base + 0x0e00
  | rfsts0 => base + 0x00d8
  | rfdf00 => base + 0x0e08
  | rfdf10 => base + 0x0e0c
  | rfptr0 => base + 0x0e04
  | rfpctr0 => base + 0x00f8
  | gsts => base + 0x008c

theorem Reg.addr_inj {r r' : Reg} : r.addr = r'.addr ↔ r = r' := by
  have hall : ∀ r : Reg, r ∈ Reg.all := by
    intro r
    cases r <;> decide
  have hnodup : (Reg.all.map Reg.addr).Nodup := by decide +kernel
  exact ⟨fun h => List.inj_on_of_nodup_map hnodup (hall r) (hall r') h, congrArg _⟩

/-- `get_regs_range`. -/
def getRegsRange : Address × Address :=
  (0xffd00000, 0xffd00000 + 0x19fc)

/-- Every register lies in the range. -/
theorem Reg.addr_mem_range (r : Reg) :
    getRegsRange.1 ≤ r.addr ∧ r.addr ≤ getRegsRange.2 := by
  cases r <;> decide

/-- An address of the two data registers of the receive FIFO. -/
def isRfdf (input : Address) : Prop :=
  Reg.rfdf00.addr ≤ input ∧ input < Reg.rfdf10.addr + 4

instance (input : Address) : Decidable (isRfdf input) :=
  inferInstanceAs (Decidable (_ ∧ _))

/-- An address of the two data registers of the transmit buffer. -/
def isTmdf (output : Address) : Prop :=
  Reg.tmdf00.addr ≤ output ∧ output < Reg.tmdf10.addr + 4

instance (output : Address) : Decidable (isTmdf output) :=
  inferInstanceAs (Decidable (_ ∧ _))

/-! ## Errors and panics -/

inductive Error
  | socketCanSocket (e : String)
  | socketCanTransport (e : String)
  | socketCanFrame (e : String)
  deriving DecidableEq, Repr

/-- What `{:?}` prints for an error. -/
def Error.debug : Error → String
  | socketCanSocket e => "SocketCanSocket(" ++ e ++ ")"
  | socketCanTransport e => "SocketCanTransport(" ++ e ++ ")"
  | socketCanFrame e => "SocketCanFrame(" ++ e ++ ")"

/-- `From<Error> for polling::Error`. -/
def Error.toPolling (error : Error) : Polling.Error :=
  .handlerError ("RSCan-peripheral" ++ error.debug)

inductive Panic
  /-- `expect` of a missing value. -/
  | expect (text : String)
  /-- `unwrap` of a missing value. -/
  | unwrapNone
  /-- `unwrap` of an error. -/
  | unwrapErr (e : String)
  /-- An index or a range that reaches past the end of a slice. -/
  | outOfRange (index length : Nat)
  deriving DecidableEq, Repr

/-- `unwrap` of a result. -/
def unwrap {α : Type} : Except String α → Except Panic α
  | .ok a => .ok a
  | .error e => .error (.unwrapErr e)

/-- `try_into` a `u8`. -/
def tryIntoU8 (n : Nat) : Option UInt8 :=
  if n < 256 then some (UInt8.ofNat n) else none

/-- `O::read_u64`, which needs eight bytes. -/
def readU64 (O : Order) (bytes : List UInt8) : Except Panic UInt64 :=
  if bytes.length < 8 then .error (.outOfRange 8 bytes.length)
  else .ok (UInt64.ofNat (decode O (bytes.take 8)))

/-- `read_u64::<LE>` of a reader over `bytes`. -/
def readU64LE (bytes : List UInt8) : Except String UInt64 :=
  if bytes.length < 8 then .error "failed to fill whole buffer"
  else .ok (UInt64.ofNat (decode .le (bytes.take 8)))

/-- The range `[..len]` of a slice. -/
def sliceTo (bytes : List UInt8) (len : Nat) : Except Panic (List UInt8) :=
  if bytes.length < len then .error (.outOfRange len bytes.length) else .ok (bytes.take len)

/-! ## The peripheral -/

structure RSCan (api : SocketCan) where
  socket : Option (CANSocket api.Frame)
  interface : String
  dataQueue : List api.Frame
  selectVcanMode : Bool
  queue_of_vcan : selectVcanMode = true → dataQueue = []

/-- What an access that does not panic leaves behind, and what it returns. -/
structure Access (api : SocketCan) (O : Order) where
  can : RSCan api
  state : PCodeState O
  result : Except Polling.Error Unit

namespace RSCan

variable {api : SocketCan} {O : Order}

/-- `default`. -/
def byDefault (api : SocketCan) : RSCan api :=
  { socket := none
    interface := "N/A"
    dataQueue := []
    selectVcanMode := true
    queue_of_vcan := fun _ => rfl }

def connect (can : RSCan api) : Except Error (CANSocket api.Frame × RSCan api) :=
  match can.socket with
  | none =>
    match api.openSocket can.interface with
    | .error e => .error (.socketCanSocket e)
    | .ok socket => .ok (socket, { can with socket := some socket })
  | some socket => .ok (socket, can)

/-- `new`: only connect to socket in vcan mode. -/
def new (api : SocketCan) (virtualCanInterface : String) : Except Error (RSCan api) :=
  let slf : RSCan api :=
    { socket := none
      interface := virtualCanInterface
      dataQueue := []
      selectVcanMode := true
      queue_of_vcan := fun _ => rfl }
  match slf.connect with
  | .error e => .error e
  | .ok (_, slf) => .ok slf

def newQueued (api : SocketCan) : RSCan api :=
  { socket := none
    interface := "N/A"
    dataQueue := []
    selectVcanMode := false
    queue_of_vcan := fun _ => rfl }

/-- `clone`: the socket is opened again, the queue is not kept. -/
def clone (can : RSCan api) : RSCan api :=
  { socket := (api.openSocket can.interface).toOption
    interface := can.interface
    dataQueue := []
    selectVcanMode := can.selectVcanMode
    queue_of_vcan := fun _ => rfl }

/-- CANID: only lower 11bits/29bits are used. -/
def enqueueCanMsg (O : Order) (can : RSCan api) (canId : UInt32) (data : UInt64) :
    Except Panic (Except String Unit × RSCan api) :=
  if h : can.selectVcanMode then
    .ok (.error "push CAN msg not supported in vcan mode", can)
  else do
    let dataTmp := encode O 8 data.toNat
    let frame ← unwrap (api.newFrame canId dataTmp false false)
    .ok (.ok (), { can with
      dataQueue := can.dataQueue ++ [frame]
      queue_of_vcan := fun hvcan => absurd hvcan h })

def dequeueCanMsg (can : RSCan api) : Option api.Frame × RSCan api :=
  (can.dataQueue.head?, { can with
    dataQueue := can.dataQueue.tail
    queue_of_vcan := fun hvcan => by rw [can.queue_of_vcan hvcan, List.tail_nil] })

def clearCanMsgQueue (can : RSCan api) : RSCan api :=
  { can with
    dataQueue := []
    queue_of_vcan := fun _ => rfl }

def peekCanMsg (can : RSCan api) : Option api.Frame :=
  can.dataQueue.head?

def getRegVal (state : PCodeState O) (name : Reg) : UInt32 :=
  state.readU32 name.addr

def setRegValueU8 (state : PCodeState O) (name : Reg) (value : UInt8) : PCodeState O :=
  state.setValues name.addr [value]

/-- Init CAN regs to default values. -/
def init (state : PCodeState O) : PCodeState O :=
  let state := setRegValueU8 state .tmsts0 0x00
  -- Set Receive FIFO Buffer Empty status and set everythings else as normal
  let state := state.writeU32 Reg.rfsts0.addr 0x01
  -- Init gloabl status reg
  let state := state.writeU32 Reg.rfsts0.addr 0x00
  state.writeU32 Reg.gsts.addr 0x00

/-! ## Firmware reading from address -/

def inputRfsts0 (can : RSCan api) (state : PCodeState O) : Except Panic (Access api O) :=
  match tryIntoU8 can.dataQueue.length with
  | none => .error (.expect "Too many messages in the CAN data queue")
  | some msgCounter =>
    let regVal := getRegVal state .rfsts0
    let regVal : UInt32 :=
      -- Clear RFEMP bits and RFMC bits, then update RFMC bits
      if msgCounter > 0 then (regVal &&& 0xFFFF00FE) ||| (msgCounter.toUInt32 <<< (8 : UInt32))
      else 0x01
    .ok ⟨can, state.writeU32 Reg.rfsts0.addr regVal, .ok ()⟩

/-- Fill in DLC(Data Length) Data, Label Data and Timestamp Data. -/
def inputRfptr0 (can : RSCan api) (state : PCodeState O) : Except Panic (Access api O) :=
  match can.dataQueue.head? with
  | none => .error (.expect "CAN msg queue is empty")
  | some lastCanMsg =>
    match tryIntoU8 (api.data lastCanMsg).length with
    | none => .error (.unwrapErr "TryFromIntError(())")
    | some dataLen =>
      let timestamp : UInt32 := 0x0
      let regVal := (dataLen.toUInt64 <<< 28).toUInt32 ||| timestamp
      .ok ⟨can, state.writeU32 Reg.rfptr0.addr regVal, .ok ()⟩

/-- The frame that a read shows: in vcan mode the next one of the socket, else the head
of the queue. -/
def currentFrame (can : RSCan api) : Except Panic (Except Error (api.Frame × RSCan api)) :=
  if can.selectVcanMode then
    match can.connect with
    | .error e => .ok (.error e)
    | .ok (socket, can) => do
      let _ ← unwrap socket.readTimeout
      let frame ← unwrap socket.readFrame.1
      .ok (.ok (frame, { can with socket := some socket.readFrame.2 }))
  else
    match can.peekCanMsg with
    | none => .error (.expect "Queue is empty")
    | some frame => .ok (.ok (frame, can))

/-- The word that RFID0 shows for an identifier. -/
def rfidWord (canId : UInt32) : UInt32 :=
  if canId &&& ~~~(0x7FF : UInt32) > 0 then
    -- Extended ID
    0x8000000
  else
    -- Normal ID
    0x0000000 ||| (canId &&& 0x7FF)

def inputRfid0 (can : RSCan api) (state : PCodeState O) : Except Panic (Access api O) := do
  match ← can.currentFrame with
  | .error e => .ok ⟨can, state, .error e.toPolling⟩
  | .ok (frame, can) =>
    .ok ⟨can, state.writeU32 Reg.rfid0.addr (rfidWord (api.id frame)), .ok ()⟩

/-- Write data to RFDF00 (Lower 4 bytes) and RFDF10 (Higher 4 bytes). -/
def inputRfdf (can : RSCan api) (state : PCodeState O) : Except Panic (Access api O) := do
  match ← can.currentFrame with
  | .error e => .ok ⟨can, state, .error e.toPolling⟩
  | .ok (frame, can) =>
    let canData ← unwrap (readU64LE (api.data frame))
    .ok ⟨can, state.write Reg.rfdf00.addr 8 canData.toNat, .ok ()⟩

/-- Handle firmware reading from address: Peripheral -> Firmware. -/
def handleInput (can : RSCan api) (state : PCodeState O) (input : Address) :
    Except Panic (Access api O) :=
  if input = Reg.tmsts0.addr then .ok ⟨can, state, .ok ()⟩
  else if input = Reg.c0sts.addr then
    -- Communication is ready
    .ok ⟨can, state.writeU32 Reg.c0sts.addr 0x80, .ok ()⟩
  else if input = Reg.c0erfl.addr then
    .ok ⟨can, state.writeU32 Reg.c0erfl.addr 0x0, .ok ()⟩
  else if input = Reg.rfsts0.addr then can.inputRfsts0 state
  else if input = Reg.rfptr0.addr then can.inputRfptr0 state
  else if input = Reg.rfid0.addr then can.inputRfid0 state
  else if isRfdf input then can.inputRfdf state
  else .ok ⟨can, state, .ok ()⟩

/-! ## Firmware writing to address -/

/-- The identifier that a word of TMID0 names. -/
def toId (tmid : UInt32) : UInt32 :=
  if tmid &&& 0x80000000 ≠ 0 then
    -- Extended ID
    tmid &&& 0x1FFFFFFF
  else
    -- Standard ID
    tmid &&& 0x7FF

/-- Send a frame to the socket. Only the peripheral is changed. -/
def send (can : RSCan api) (toId : UInt32) (data : List UInt8) (dataLen : Nat) :
    Except Panic (RSCan api × Except Error Unit) :=
  match can.connect with
  | .error e => .ok (can, .error e)
  | .ok (socket, can) => do
    let slice ← sliceTo data dataLen
    match api.newFrame toId slice false false with
    | .error e => .ok (can, .error (.socketCanFrame e))
    | .ok frame =>
      let can := { can with socket := some (socket.writeFrame frame).2 }
      match (socket.writeFrame frame).1 with
      | .error e => .ok (can, .error (.socketCanTransport e))
      | .ok () => .ok (can, .ok ())

def outputTmc0 (can : RSCan api) (state : PCodeState O) (value : List UInt8) :
    Except Panic (Access api O) :=
  match value with
  | [] => .error (.outOfRange 0 0)
  | tmcValue :: _ =>
    if tmcValue &&& 0x01 ≠ 0 then do
      let tmid := getRegVal state .tmid0
      let tmptr := getRegVal state .tmptr0
      let dataLen := (tmptr &&& 0xF0000000) >>> 28
      -- get data from tmdf0 and tmdf1
      let datal ← readU64 O (state.memory.read Reg.tmdf00.addr 4)
      let datah ← readU64 O (state.memory.read Reg.tmdf10.addr 4)
      let data := datal ||| (datah <<< 32)
      let dataSlice := encode .le 8 data.toNat
      -- clear the bit
      let state := setRegValueU8 state .tmc0 (tmcValue &&& 0xFE)
      if can.selectVcanMode then
        let (can, result) ← can.send (toId tmid) dataSlice dataLen.toNat
        .ok ⟨can, state, result.mapError Error.toPolling⟩
      else
        .ok ⟨can, state, .ok ()⟩
    else
      .ok ⟨can, state, .ok ()⟩

/-- When writting 0xFF to RFPCTR0 dequeue msg. The value is not looked at. -/
def outputRfpctr0 (can : RSCan api) (state : PCodeState O) : Except Panic (Access api O) :=
  match can.dequeueCanMsg.1 with
  | none => .error .unwrapNone
  | some _ => .ok ⟨can.dequeueCanMsg.2, state, .ok ()⟩

/-- Handle firmware writting to address: Firmware -> Peripheral. -/
def handleOutput (can : RSCan api) (state : PCodeState O) (output : Address)
    (value : List UInt8) : Except Panic (Access api O) :=
  if output = Reg.tmsts0.addr then .ok ⟨can, state, .ok ()⟩
  else if isTmdf output then .ok ⟨can, state, .ok ()⟩
  else if output = Reg.tmc0.addr then can.outputTmc0 state value
  else if output = Reg.rfpctr0.addr then can.outputRfpctr0 state
  else .ok ⟨can, state, .ok ()⟩

end RSCan

end FuguexPeripheral.V850
