import FuguexPeripheral.V850.ReceiveQueue

/-!
# Identifiers in the receive path

RFID0 shows the identifier of the message at the head of the queue. The transmit path
reads TMID0 with bit 31 for an extended identifier and the identifier below it
(`toId`). RFID0 is written with another literal for an extended identifier, and without
the identifier.

Results:
1. `survives_of_le`: identifiers of 11 bits come back.
2. `le_of_survives`: no others do. Where no frame can be built, the error is unwrapped
   (`enqueueCanMsg_cases`), and any other identifier is shown as 0.
3. `survives_iff`: the two together.
-/

namespace FuguexPeripheral.V850

open ByteStore RSCan

variable {api : SocketCan} {O : Order}

/-- In queued mode, with the frame at the head, RFID0 shows a word that the transmit path
reads as the identifier. -/
def ShowsId (O : Order) (frame : api.Frame) (canId : UInt32) : Prop :=
  ∀ (can : RSCan api) (state : PCodeState O), can.selectVcanMode = false →
    can.dataQueue.head? = some frame →
    ∃ r, can.handleInput state Reg.rfid0.addr = .ok r ∧
      toId (r.state.readU32 Reg.rfid0.addr) = canId

/-- Enqueuing a message either returns an error and leaves the queue, or appends one frame
that shows the identifier. -/
def Survives (O : Order) (can : RSCan api) (canId : UInt32) (data : UInt64) : Prop :=
  ∃ result can', can.enqueueCanMsg O canId data = .ok (result, can') ∧
    ((∃ text, result = .error text) ∧ can'.dataQueue = can.dataQueue ∨
      result = .ok () ∧ ∃ frame, can'.dataQueue = can.dataQueue ++ [frame] ∧
        ShowsId O frame canId)

namespace IdentifiersLemmas

/-- A peripheral with one frame in its queue. -/
def oneFrame (frame : api.Frame) : RSCan api :=
  { newQueued api with
    dataQueue := [frame]
    queue_of_vcan := fun hvcan => by cases hvcan }

/-- RFID0 shows the identifiers that the transmit path reads back. -/
theorem showsId_iff (frame : api.Frame) (canId : UInt32) :
    ShowsId O frame canId ↔ toId (rfidWord (api.id frame)) = canId := by
  constructor
  · intro h
    obtain ⟨r, hr, hword⟩ := h (oneFrame frame) (blank O) rfl rfl
    rw [handleInput_rfid0_of_head _ rfl rfl] at hr
    cases hr
    rwa [PCodeState.readU32_writeU32] at hword
  · intro h can state hmode hhead
    refine ⟨_, handleInput_rfid0_of_head state hmode hhead, ?_⟩
    rw [PCodeState.readU32_writeU32, h]

theorem survives_of_le (hapi : api.Lawful) {can : RSCan api} (hmode : can.selectVcanMode = false)
    {canId : UInt32} (data : UInt64) (h : canId ≤ 0x7FF) : Survives O can canId data := by
  obtain ⟨frame, hnew, hid, -⟩ := hapi.exists_message O h data
  refine ⟨_, _, enqueueCanMsg_of_newFrame hmode hnew, .inr ⟨rfl, frame, rfl, ?_⟩⟩
  rw [showsId_iff, hid, toId_rfidWord]
  exact h

theorem le_of_survives (hapi : api.Lawful) {can : RSCan api} (hmode : can.selectVcanMode = false)
    {canId : UInt32} {data : UInt64} (h : Survives O can canId data) : canId ≤ 0x7FF := by
  obtain ⟨result, can', hok, hresult⟩ := h
  obtain ⟨frame, hnew, rfl, -, hqueue⟩ := enqueueCanMsg_cases hmode hok
  rcases hresult with ⟨⟨text, htext⟩, -⟩ | ⟨-, frame', hqueue', hshows⟩
  · cases htext
  · have hframe : frame = frame' := by simpa using hqueue.symm.trans hqueue'
    rw [← hframe, showsId_iff, hapi.id_newFrame _ _ _ hnew, toId_rfidWord] at hshows
    exact hshows

end IdentifiersLemmas

open IdentifiersLemmas

/-- The receive path keeps the identifiers of 11 bits, in every queued state, and no
others. -/
theorem survives_iff (hapi : api.Lawful) {can : RSCan api} (hmode : can.selectVcanMode = false)
    (canId : UInt32) (data : UInt64) : Survives O can canId data ↔ canId ≤ 0x7FF :=
  ⟨le_of_survives hapi hmode, survives_of_le hapi hmode data⟩

theorem survives_iff_standard :
    Survives .le (newQueued SocketCan.plain) 0x123 0 ↔ (0x123 : UInt32) ≤ 0x7FF :=
  survives_iff SocketCan.lawful_plain rfl 0x123 0

/-- The smallest extended identifier does not come back. -/
theorem not_survives_extended : ¬ Survives .le (newQueued SocketCan.plain) 0x800 0 :=
  fun h => absurd (le_of_survives SocketCan.lawful_plain rfl h) (by decide)

end FuguexPeripheral.V850
