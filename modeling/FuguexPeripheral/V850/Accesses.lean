import FuguexPeripheral.Masks
import FuguexPeripheral.V850.RSCan

/-!
# Accesses to the RSCAN registers

The peripheral in its emulator, driven by its user, who fills and empties the queue, and
by the firmware, which reads and writes registers and computes in between.

Results:
1. `handleInput_*`, `handleOutput_*`: which registers the handlers look at.
2. `enqueueCanMsg_of_newFrame`, `enqueueCanMsg_cases`: what enqueuing does in queued mode.
3. `currentFrame_of_queued`, `currentFrame_of_vcan`: where the frame of a read comes from.
4. `inputRfid0_ok`, `inputRfdf_ok`, `inputRfptr0_ok`: what a read leaves behind.
5. `rfidWord_eq_self`, `toId_rfidWord`: identifiers of 11 bits and others in RFID0.
-/

namespace FuguexPeripheral.V850

open ByteStore RSCan

/-- A peripheral and the state of the emulator that it is part of. -/
structure System (api : SocketCan) (O : Order) where
  can : RSCan api
  state : PCodeState O

/-- What happens to a system. -/
inductive Event (O : Order)
  | enqueue (canId : UInt32) (data : UInt64)
  | dequeue
  | clear
  | init
  /-- The firmware reads from an address. -/
  | input (address : Address)
  /-- The firmware writes to an address. -/
  | output (address : Address) (value : List UInt8)
  /-- The firmware computes, and leaves any state. -/
  | execute (state : PCodeState O)

variable {api : SocketCan} {O : Order}

def System.step (s : System api O) : Event O → Except Panic (System api O)
  | .enqueue canId data => (s.can.enqueueCanMsg O canId data).map fun r => ⟨r.2, s.state⟩
  | .dequeue => .ok ⟨s.can.dequeueCanMsg.2, s.state⟩
  | .clear => .ok ⟨s.can.clearCanMsgQueue, s.state⟩
  | .init => .ok ⟨s.can, RSCan.init s.state⟩
  | .input address => (s.can.handleInput s.state address).map fun r => ⟨r.can, r.state⟩
  | .output address value =>
    (s.can.handleOutput s.state address value).map fun r => ⟨r.can, r.state⟩
  | .execute state => .ok ⟨s.can, state⟩

/-- A frame for an identifier of 11 bits and the eight bytes of a number. -/
theorem SocketCan.Lawful.exists_message (h : api.Lawful) (O : Order) {id : UInt32}
    (hid : id ≤ 0x7FF) (data : UInt64) :
    ∃ frame, api.newFrame id (encode O 8 data.toNat) false false = .ok frame ∧
      api.id frame = id ∧ api.data frame = encode O 8 data.toNat := by
  have hid29 : id ≤ 0x1FFFFFFF := UInt32.le_trans hid (by decide)
  have hlen : (encode O 8 data.toNat).length ≤ 8 := by simp
  exact h.exists_newFrame hid29 hlen

/-! ## Dispatch -/

namespace RSCan

variable (can : RSCan api) (state : PCodeState O)

theorem handleInput_rfsts0 : can.handleInput state Reg.rfsts0.addr = can.inputRfsts0 state := by
  simp [handleInput, Reg.addr_inj]

theorem handleInput_rfptr0 : can.handleInput state Reg.rfptr0.addr = can.inputRfptr0 state := by
  simp [handleInput, Reg.addr_inj]

theorem handleInput_rfid0 : can.handleInput state Reg.rfid0.addr = can.inputRfid0 state := by
  simp [handleInput, Reg.addr_inj]

theorem handleInput_rfdf {input : Address} (h : isRfdf input) :
    can.handleInput state input = can.inputRfdf state := by
  have hne : ∀ r : Reg, ¬ isRfdf r.addr → input ≠ r.addr := by
    rintro r hr rfl
    exact hr h
  have htmsts0 := hne .tmsts0 (by decide)
  have hc0sts := hne .c0sts (by decide)
  have hc0erfl := hne .c0erfl (by decide)
  have hrfsts0 := hne .rfsts0 (by decide)
  have hrfptr0 := hne .rfptr0 (by decide)
  have hrfid0 := hne .rfid0 (by decide)
  simp [handleInput, *]

theorem handleOutput_rfpctr0 (value : List UInt8) :
    can.handleOutput state Reg.rfpctr0.addr value = can.outputRfpctr0 state := by
  have h : ¬ isTmdf Reg.rfpctr0.addr := by decide
  simp [handleOutput, h, Reg.addr_inj]

/-! ## Enqueuing -/

section Enqueue

variable {can can' : RSCan api} {canId : UInt32} {data : UInt64}

theorem enqueueCanMsg_of_newFrame (hmode : can.selectVcanMode = false) {frame : api.Frame}
    (hnew : api.newFrame canId (encode O 8 data.toNat) false false = .ok frame) :
    can.enqueueCanMsg O canId data =
      .ok (.ok (), { can with
        dataQueue := can.dataQueue ++ [frame]
        queue_of_vcan := fun hvcan => by simp [hmode] at hvcan }) := by
  simp [enqueueCanMsg, hmode, hnew, unwrap, bind, Except.bind]

/-- In queued mode a call that returns has built a frame and put it at the end. A frame that
cannot be built is unwrapped. -/
theorem enqueueCanMsg_cases (hmode : can.selectVcanMode = false) {result : Except String Unit}
    (h : can.enqueueCanMsg O canId data = .ok (result, can')) :
    ∃ frame, api.newFrame canId (encode O 8 data.toNat) false false = .ok frame ∧
      result = .ok () ∧ can'.selectVcanMode = false ∧
      can'.dataQueue = can.dataQueue ++ [frame] := by
  cases hnew : api.newFrame canId (encode O 8 data.toNat) false false with
  | error e => simp [enqueueCanMsg, hmode, hnew, unwrap, bind, Except.bind] at h
  | ok frame =>
    rw [enqueueCanMsg_of_newFrame hmode hnew] at h
    cases h
    exact ⟨frame, rfl, rfl, hmode, rfl⟩

end Enqueue

/-! ## Reads of the receive FIFO -/

/-- Connecting keeps the mode. -/
theorem mode_of_connect {can can' : RSCan api} {socket : CANSocket api.Frame}
    (h : can.connect = .ok (socket, can')) : can'.selectVcanMode = can.selectVcanMode := by
  unfold connect at h
  split at h
  next =>
    split at h
    next => cases h
    next => cases h; rfl
  next => cases h; rfl

variable {can can' : RSCan api} {frame : api.Frame}

theorem currentFrame_of_queued (hmode : can.selectVcanMode = false)
    (hhead : can.dataQueue.head? = some frame) : can.currentFrame = .ok (.ok (frame, can)) := by
  simp [currentFrame, peekCanMsg, hmode, hhead]

/-- Without a message there is no frame to show. -/
theorem currentFrame_of_empty (hmode : can.selectVcanMode = false) (h : can.dataQueue = []) :
    can.currentFrame = .error (.expect "Queue is empty") := by
  simp [currentFrame, peekCanMsg, hmode, h]

/-- In vcan mode a read takes the next frame from the socket. -/
theorem currentFrame_of_vcan (hmode : can.selectVcanMode = true) {socket : CANSocket api.Frame}
    (hconnect : can.connect = .ok (socket, can')) (htimeout : socket.readTimeout = .ok ())
    (hread : socket.incoming.head = .ok frame) :
    can.currentFrame = .ok (.ok (frame, { can' with socket := some socket.readFrame.2 })) := by
  have hframe : socket.readFrame.1 = .ok frame := hread
  simp only [currentFrame, hmode, if_pos, hconnect, htimeout, hframe]
  rfl

theorem inputRfid0_ok (h : can.currentFrame = .ok (.ok (frame, can'))) :
    can.inputRfid0 state =
      .ok ⟨can', state.writeU32 Reg.rfid0.addr (rfidWord (api.id frame)), .ok ()⟩ := by
  rw [inputRfid0, h]
  rfl

/-- A read of RFID0 shows the frame at the head of the queue. -/
theorem handleInput_rfid0_of_head (hmode : can.selectVcanMode = false)
    (hhead : can.dataQueue.head? = some frame) :
    can.handleInput state Reg.rfid0.addr =
      .ok ⟨can, state.writeU32 Reg.rfid0.addr (rfidWord (api.id frame)), .ok ()⟩ := by
  rw [handleInput_rfid0, inputRfid0_ok state (currentFrame_of_queued hmode hhead)]

/-- Eight bytes are one number. -/
theorem readU64LE_of_length {data : List UInt8} (h : data.length = 8) :
    readU64LE data = .ok (UInt64.ofNat (decode .le data)) := by
  rw [readU64LE, if_neg (Nat.not_lt.mpr (Nat.le_of_eq h.symm)),
    List.take_of_length_le (Nat.le_of_eq h)]

theorem inputRfdf_ok (h : can.currentFrame = .ok (.ok (frame, can'))) {data : UInt64}
    (hdata : readU64LE (api.data frame) = .ok data) :
    can.inputRfdf state =
      .ok ⟨can', state.write Reg.rfdf00.addr 8 data.toNat, .ok ()⟩ := by
  rw [inputRfdf, h]
  simp only [bind, Except.bind, hdata, unwrap]

theorem inputRfptr0_ok (hhead : can.dataQueue.head? = some frame)
    (hdata : (api.data frame).length = 8) :
    can.inputRfptr0 state =
      .ok ⟨can, state.writeU32 Reg.rfptr0.addr ((8 : UInt32) <<< 28), .ok ()⟩ := by
  rw [inputRfptr0, hhead]
  simp only [hdata]
  rfl

/-- Without a message RFSTS0 shows an empty FIFO. -/
theorem inputRfsts0_of_empty (h : can.dataQueue = []) :
    can.inputRfsts0 state = .ok ⟨can, state.writeU32 Reg.rfsts0.addr 0x01, .ok ()⟩ := by
  rw [inputRfsts0, h]
  rfl

/-- Without a message the data length cannot be read. -/
theorem inputRfptr0_of_empty (h : can.dataQueue = []) :
    can.inputRfptr0 state = .error (.expect "CAN msg queue is empty") := by
  rw [inputRfptr0, h]
  rfl

theorem outputRfpctr0_of_cons {rest : List api.Frame} (h : can.dataQueue = frame :: rest) :
    can.outputRfpctr0 state = .ok ⟨can.dequeueCanMsg.2, state, .ok ()⟩ := by
  simp [outputRfpctr0, dequeueCanMsg, h]

end RSCan

/-! ## Identifiers -/

theorem and_low_eq_self_iff {x : UInt32} : x &&& 0x7FF = x ↔ x ≤ 0x7FF := by
  have hmod : (x &&& 0x7FF).toNat = x.toNat % 2 ^ 11 := Masks.toNat_and_low x rfl
  rw [← UInt32.toNat_inj, hmod, UInt32.le_iff_toNat_le]
  simp
  omega

/-- An identifier of at most 11 bits is shown as it is. -/
theorem rfidWord_eq_self {canId : UInt32} (h : canId ≤ 0x7FF) : rfidWord canId = canId := by
  have hlow := and_low_eq_self_iff.mpr h
  have hhigh := (Masks.and_not_eq_zero_iff canId 0x7FF).mpr hlow
  simp [rfidWord, hlow, hhigh]

/-- Any other identifier is shown as one literal. -/
theorem rfidWord_of_lt {canId : UInt32} (h : 0x7FF < canId) : rfidWord canId = 0x8000000 := by
  have hhigh : canId &&& ~~~(0x7FF : UInt32) ≠ 0 := fun h0 =>
    UInt32.not_le.mpr h (and_low_eq_self_iff.mp ((Masks.and_not_eq_zero_iff _ _).mp h0))
  exact if_pos (UInt32.pos_iff_ne_zero.mpr hhigh)

theorem toId_eq_self {canId : UInt32} (h : canId ≤ 0x7FF) : toId canId = canId := by
  have hlow := and_low_eq_self_iff.mpr h
  have hbit : canId &&& 0x80000000 = 0 := by
    rw [← hlow, UInt32.and_assoc]
    exact UInt32.and_zero
  simp [toId, hlow, hbit]

/-- The transmit path reads the word of RFID0 back as the identifier when the identifier
has at most 11 bits. -/
theorem toId_rfidWord (canId : UInt32) : toId (rfidWord canId) = canId ↔ canId ≤ 0x7FF := by
  by_cases h : canId ≤ 0x7FF
  · simp [rfidWord_eq_self h, toId_eq_self h, h]
  · have hlt := UInt32.not_le.mp h
    have hzero : toId 0x8000000 = 0 := by decide
    rw [rfidWord_of_lt hlt, hzero]
    refine ⟨?_, fun hle => absurd hle h⟩
    rintro rfl
    exact absurd hlt (by decide)

end FuguexPeripheral.V850
