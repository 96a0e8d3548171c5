import FuguexPeripheral.V850.ReceiveQueue

/-!
# Sending a frame

A write to TMC0 with its lowest bit set asks for the frame that the transmit registers
describe. The handler looks at each data register through a slice of four bytes, and reads
eight from it.

Results:
1. `outputTmc0_panics`: a request ends at the first data register.
2. `not_transmits`: no request sends what the registers describe.
-/

namespace FuguexPeripheral.V850

open ByteStore RSCan

variable {api : SocketCan} {O : Order}

/-! ## What the registers describe -/

/-- The identifier: 29 bits of TMID0 if its top bit is set, else 11. -/
def describedId (state : PCodeState O) : UInt32 :=
  toId (getRegVal state .tmid0)

/-- The data: the bytes of TMDF00 and TMDF10, as many as TMPTR0 says and at most eight. -/
def describedData (state : PCodeState O) : List UInt8 :=
  let low := encode .le 4 (getRegVal state .tmdf00).toNat
  let high := encode .le 4 (getRegVal state .tmdf10).toNat
  (low ++ high).take (min (getRegVal state .tmptr0 >>> 28).toNat 8)

/-- A write of `value` to TMC0 returns, leaves the lowest bit of TMC0 clear, and in vcan mode
puts the described frame on a socket that takes it. -/
def Transmits (can : RSCan api) (state : PCodeState O) (value : List UInt8) : Prop :=
  ∃ access, can.handleOutput state Reg.tmc0.addr value = .ok access ∧
    access.state.memory Reg.tmc0.addr &&& 0x01 = 0 ∧
    ∀ socket can', can.selectVcanMode = true → can.connect = .ok (socket, can') →
      socket.outgoing.head = .ok () →
      ∃ frame socket',
        api.newFrame (describedId state) (describedData state) false false = .ok frame ∧
        access.can.socket = some socket' ∧ socket'.sent = socket.sent ++ [frame]

/-! ## The handler -/

namespace TransmitLemmas

theorem handleOutput_tmc0 (can : RSCan api) (state : PCodeState O) (value : List UInt8) :
    can.handleOutput state Reg.tmc0.addr value = can.outputTmc0 state value := by
  have h : ¬ isTmdf Reg.tmc0.addr := by decide
  simp [handleOutput, h, Reg.addr_inj]

/-- Four bytes are too few for `read_u64`. -/
theorem readU64_four (O : Order) (m : Store) (a : Nat) :
    readU64 O (m.read a 4) = .error (.outOfRange 8 4) := by
  rw [readU64, Store.length_read]
  rfl

/-- A request ends at the first data register, whatever is in the registers. -/
theorem outputTmc0_panics (can : RSCan api) (state : PCodeState O) {tmcValue : UInt8}
    (rest : List UInt8) (h : tmcValue &&& 0x01 ≠ 0) :
    can.outputTmc0 state (tmcValue :: rest) = .error (.outOfRange 8 4) := by
  simp only [outputTmc0, h, if_true, readU64_four, bind, Except.bind, ne_eq, not_false_eq_true]

end TransmitLemmas

open TransmitLemmas

/-- No request sends what the registers describe: in either byte order, in either mode and
for every content of memory it panics. -/
theorem not_transmits (can : RSCan api) (state : PCodeState O) {tmcValue : UInt8}
    (rest : List UInt8) (h : tmcValue &&& 0x01 ≠ 0) :
    can.handleOutput state Reg.tmc0.addr (tmcValue :: rest) = .error (.outOfRange 8 4) ∧
      ¬ Transmits can state (tmcValue :: rest) := by
  have hpanic : can.handleOutput state Reg.tmc0.addr (tmcValue :: rest) =
      .error (.outOfRange 8 4) := by
    rw [handleOutput_tmc0, outputTmc0_panics can state rest h]
  refine ⟨hpanic, ?_⟩
  rintro ⟨access, hok, -⟩
  cases hpanic.symm.trans hok

theorem not_transmits_queued :
    (newQueued SocketCan.plain).handleOutput (blank .be) Reg.tmc0.addr [0x03] =
        .error (.outOfRange 8 4) ∧
      ¬ Transmits (newQueued SocketCan.plain) (blank .be) [0x03] :=
  not_transmits (newQueued SocketCan.plain) (blank .be) [] (by decide)

/-- A request for an empty frame in queued mode. -/
theorem not_transmits_empty :
    ¬ Transmits (newQueued SocketCan.plain) (blank .le) [0x01] := by
  rintro ⟨access, hok, -⟩
  have hpanic : (newQueued SocketCan.plain).handleOutput (blank .le) Reg.tmc0.addr [0x01] =
      .error (.outOfRange 8 4) := by
    rw [handleOutput_tmc0]
    exact outputTmc0_panics _ _ [] (by decide)
  cases hpanic.symm.trans hok

end FuguexPeripheral.V850
