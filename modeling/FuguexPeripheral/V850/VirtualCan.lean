import FuguexPeripheral.V850.ReceiveQueue

/-!
# Receiving in vcan mode

In vcan mode the firmware receives from a socket. The registers of a message are served
by different parts of the handler: RFID0 and the data registers take a frame from the
socket at every read, RFSTS0, RFPTR0 and RFPCTR0 turn to the queue, which is empty.

Results:
1. `currentFrame_of_listens`: a read of RFID0 or of a data register takes the next frame.
2. `receive_panics`: the read of RFPTR0 ends every round.
3. `untorn_iff`: no round delivers a message.
4. `glances_torn`: without RFPTR0 and RFPCTR0 a round mixes three frames.
-/

namespace FuguexPeripheral.V850

open ByteStore RSCan

variable {api : SocketCan} {O : Order}

/-! ## The socket as a stream -/

/-- The socket of the peripheral gives the frames of a stream, one after another. -/
def Feeds (can : RSCan api) (stream : Stream' api.Frame) : Prop :=
  ∃ socket can', can.connect = .ok (socket, can') ∧ socket.readTimeout = .ok () ∧
    socket.incoming = stream.map .ok

/-- In vcan mode and fed by a stream. -/
structure Listens (can : RSCan api) (stream : Stream' api.Frame) : Prop where
  mode : can.selectVcanMode = true
  feeds : Feeds can stream

/-! ## Rounds -/

namespace System

/-- What the firmware sees when it reads a register. -/
def load (s : System api O) (r : Reg) : Except Panic (UInt32 × System api O) :=
  (s.step (.input r.addr)).map fun t => (t.state.readU32 r.addr, t)

end System

/-- The words of one round. -/
structure Received where
  status : UInt32
  id : UInt32
  pointer : UInt32
  low : UInt32
  high : UInt32
  deriving DecidableEq, Repr

namespace System

/-- One round: read RFSTS0, RFID0, RFPTR0, RFDF00 and RFDF10, and write RFPCTR0. -/
def receive (s : System api O) : Except Panic (Received × System api O) := do
  let status ← s.load .rfsts0
  let id ← status.2.load .rfid0
  let pointer ← id.2.load .rfptr0
  let low ← pointer.2.load .rfdf00
  let high ← low.2.load .rfdf10
  let s ← high.2.step (.output Reg.rfpctr0.addr [0xff])
  .ok (⟨status.1, id.1, pointer.1, low.1, high.1⟩, s)

def receiveRounds (s : System api O) : Nat → Except Panic (List Received × System api O)
  | 0 => .ok ([], s)
  | n + 1 => do
    let round ← s.receive
    let rest ← round.2.receiveRounds n
    .ok (round.1 :: rest.1, rest.2)

end System

/-- RFSTS0 shows a message: RFEMP is clear. -/
def Received.Available (r : Received) : Prop :=
  r.status &&& 0x1 = 0

/-- The words are those of one frame. -/
structure Received.IsFrame (r : Received) (frame : api.Frame) : Prop where
  id : toId r.id = api.id frame
  length : (r.pointer >>> 28).toNat = (api.data frame).length
  low : r.low.toNat = decode .le ((api.data frame).take 4)
  high : r.high.toNat = decode .le ((api.data frame).drop 4)

/-- In `n` rounds nothing panics, and each receives the next frame of the stream. -/
def Untorn (s : System api O) (stream : Stream' api.Frame) (n : Nat) : Prop :=
  ∃ received t, s.receiveRounds n = .ok (received, t) ∧ received.length = n ∧
    ∀ k (r : Received), received[k]? = some r → r.Available ∧ r.IsFrame (stream.get k)

/-! ## One access -/

namespace VirtualCanLemmas

/-- A read takes the next frame and the socket goes on with the rest. -/
theorem currentFrame_of_listens {can : RSCan api} {stream : Stream' api.Frame}
    (h : Listens can stream) :
    ∃ can', can.currentFrame = .ok (.ok (stream.head, can')) ∧ Listens can' stream.tail := by
  obtain ⟨hmode, socket, can', hconnect, htimeout, hincoming⟩ := h
  have hhead : socket.incoming.head = .ok stream.head := by
    rw [hincoming]
    rfl
  have htail : socket.readFrame.2.incoming = stream.tail.map .ok := by
    rw [CANSocket.readFrame, hincoming]
    rfl
  refine ⟨_, currentFrame_of_vcan hmode hconnect htimeout hhead, ?_, _, _, rfl, htimeout, htail⟩
  rw [mode_of_connect hconnect, hmode]

variable {s : System api O} {stream : Stream' api.Frame}

theorem load_rfsts0 (h : Listens s.can stream) :
    ∃ t, s.load .rfsts0 = .ok (0x01, t) ∧ Listens t.can stream := by
  have hqueue := s.can.queue_of_vcan h.mode
  refine ⟨⟨s.can, s.state.writeU32 Reg.rfsts0.addr 0x01⟩, ?_, h⟩
  rw [System.load, System.step, handleInput_rfsts0, inputRfsts0_of_empty _ hqueue]
  simp [Except.map]

theorem load_rfid0 (h : Listens s.can stream) :
    ∃ t, s.load .rfid0 = .ok (rfidWord (api.id stream.head), t) ∧ Listens t.can stream.tail := by
  obtain ⟨can', hframe, hlistens⟩ := currentFrame_of_listens h
  refine ⟨⟨can', s.state.writeU32 Reg.rfid0.addr (rfidWord (api.id stream.head))⟩, ?_, hlistens⟩
  rw [System.load, System.step, handleInput_rfid0, inputRfid0_ok _ hframe]
  simp [Except.map]

/-- The queue has no message to show the length of. -/
theorem load_rfptr0 (h : Listens s.can stream) :
    s.load .rfptr0 = .error (.expect "CAN msg queue is empty") := by
  have hqueue := s.can.queue_of_vcan h.mode
  rw [System.load, System.step, handleInput_rfptr0, inputRfptr0_of_empty _ hqueue]
  rfl

/-- The read of RFPTR0 ends every round. -/
theorem receive_panics (h : Listens s.can stream) :
    s.receive = .error (.expect "CAN msg queue is empty") := by
  obtain ⟨s₁, hstatus, h₁⟩ := load_rfsts0 h
  obtain ⟨s₂, hid, h₂⟩ := load_rfid0 h₁
  simp [System.receive, hstatus, hid, load_rfptr0 h₂, bind, Except.bind]

end VirtualCanLemmas

open VirtualCanLemmas

/-- No round delivers a message, whatever frames the socket has. -/
theorem untorn_iff {s : System api O} {stream : Stream' api.Frame} (h : Listens s.can stream)
    (n : Nat) : Untorn s stream n ↔ n = 0 := by
  cases n with
  | zero => exact ⟨fun _ => rfl, fun _ => ⟨[], s, rfl, rfl, fun k r hr => by simp at hr⟩⟩
  | succ n =>
    refine ⟨?_, fun hn => absurd hn n.succ_ne_zero⟩
    rintro ⟨received, t, hrounds, -⟩
    rw [System.receiveRounds, receive_panics h] at hrounds
    cases hrounds

/-- A frame that comes again and again. -/
def vcanFrame : UInt32 × List UInt8 :=
  (0x123, encode .le 8 0x0807060504030201)

/-- Every interface carries that frame. -/
def vcan0 : SocketCan :=
  { SocketCan.plain with
    openSocket := fun _ =>
      .ok ⟨.ok (), Stream'.const (.ok vcanFrame), Stream'.const (.ok ()), []⟩ }

theorem listens_vcan0 : Listens (byDefault vcan0) (Stream'.const vcanFrame) :=
  ⟨rfl, _, _, rfl, rfl, rfl⟩

theorem untorn_iff_vcan0 :
    Untorn (⟨byDefault vcan0, blank .le⟩ : System vcan0 .le) (Stream'.const vcanFrame) 2 ↔
      2 = 0 :=
  untorn_iff listens_vcan0 2

/-- The first round panics although the socket has a frame of eight bytes. -/
theorem torn_vcan0 :
    ¬ Untorn (⟨byDefault vcan0, blank .le⟩ : System vcan0 .le) (Stream'.const vcanFrame) 1 := by
  rintro ⟨received, t, hrounds, -⟩
  rw [System.receiveRounds, receive_panics listens_vcan0] at hrounds
  cases hrounds

/-! ## What the other registers show -/

/-- The words of a round without RFPTR0 and RFPCTR0. -/
structure Glance where
  status : UInt32
  id : UInt32
  low : UInt32
  high : UInt32
  deriving DecidableEq, Repr

namespace System

/-- Read RFSTS0, RFID0, RFDF00 and RFDF10. -/
def glance (s : System api O) : Except Panic (Glance × System api O) := do
  let status ← s.load .rfsts0
  let id ← status.2.load .rfid0
  let low ← id.2.load .rfdf00
  let high ← low.2.load .rfdf10
  .ok (⟨status.1, id.1, low.1, high.1⟩, high.2)

def glances (s : System api O) : Nat → Except Panic (List Glance × System api O)
  | 0 => .ok ([], s)
  | n + 1 => do
    let round ← s.glance
    let rest ← round.2.glances n
    .ok (round.1 :: rest.1, rest.2)

end System

/-- The eight bytes of a frame as an integer. -/
def dataOf (frame : api.Frame) : UInt64 :=
  UInt64.ofNat (decode .le (api.data frame))

namespace VirtualCanLemmas

variable {s : System api O} {stream : Stream' api.Frame}

theorem load_rfdf (h : Listens s.can stream) (hdata : (api.data stream.head).length = 8) {r : Reg}
    (hr : isRfdf r.addr) :
    ∃ t, s.load r = .ok (t.state.readU32 r.addr, t) ∧ Listens t.can stream.tail ∧
      t.state = s.state.write Reg.rfdf00.addr 8 (dataOf stream.head).toNat := by
  obtain ⟨can', hframe, hlistens⟩ := currentFrame_of_listens h
  have hread : readU64LE (api.data stream.head) = .ok (dataOf stream.head) := by
    rw [readU64LE, if_neg (by omega), List.take_of_length_le (by omega), dataOf]
  refine ⟨⟨can', _⟩, ?_, hlistens, rfl⟩
  rw [System.load, System.step, handleInput_rfdf _ _ hr, inputRfdf_ok _ hframe hread]
  rfl

/-- A round takes three frames: one for the identifier and one for each data register. -/
theorem glance_torn (h : Listens s.can stream) (hdata : ∀ k, (api.data (stream.get k)).length = 8) :
    ∃ t, s.glance = .ok (⟨0x01, rfidWord (api.id (stream.get 0)),
        (PCodeState.halves O (dataOf (stream.get 1))).1,
        (PCodeState.halves O (dataOf (stream.get 2))).2⟩, t) ∧
      Listens t.can (stream.drop 3) := by
  obtain ⟨s₁, hstatus, h₁⟩ := load_rfsts0 h
  obtain ⟨s₂, hid, h₂⟩ := load_rfid0 h₁
  obtain ⟨s₃, hlow, h₃, hs₃⟩ := load_rfdf h₂ (hdata 1) (r := .rfdf00) (by decide)
  obtain ⟨s₄, hhigh, h₄, hs₄⟩ := load_rfdf h₃ (hdata 2) (r := .rfdf10) (by decide)
  have hlowWord := (PCodeState.readU32_write_halves s₂.state Reg.rfdf00.addr
    (dataOf stream.tail.head)).1
  have hhighWord := (PCodeState.readU32_write_halves s₃.state Reg.rfdf00.addr
    (dataOf stream.tail.tail.head)).2
  rw [hs₃, hlowWord] at hlow
  rw [hs₄] at hhigh
  refine ⟨s₄, ?_, h₄⟩
  simp only [System.glance, hstatus, hid, hlow, hhigh, bind, Except.bind]
  exact congrArg (fun w => Except.ok (Glance.mk _ _ _ w, s₄)) hhighWord

end VirtualCanLemmas

/-- Without the registers that panic, round `k` shows an empty FIFO, the identifier of
frame `3 * k`, the first word of frame `3 * k + 1` and the second of frame `3 * k + 2`. -/
theorem glances_torn {s : System api O} {stream : Stream' api.Frame} (h : Listens s.can stream)
    (hdata : ∀ k, (api.data (stream.get k)).length = 8) (n : Nat) :
    ∃ t, s.glances n = .ok ((List.range n).map fun k =>
      ⟨0x01, rfidWord (api.id (stream.get (3 * k))),
        (PCodeState.halves O (dataOf (stream.get (3 * k + 1)))).1,
        (PCodeState.halves O (dataOf (stream.get (3 * k + 2)))).2⟩, t) := by
  induction n generalizing s stream with
  | zero => exact ⟨s, rfl⟩
  | succ n ih =>
    obtain ⟨s₁, hround, h₁⟩ := glance_torn h hdata
    obtain ⟨t, hrest⟩ := ih h₁ fun k => hdata (k + 3)
    refine ⟨t, ?_⟩
    simp only [System.glances, hround, hrest, bind, Except.bind, List.range_succ_eq_map,
      List.map_cons, List.map_map]
    rfl

end FuguexPeripheral.V850
