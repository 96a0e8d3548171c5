import Mathlib.Data.Stream.Init
import FuguexPeripheral.Basic

/-!
# SocketCAN

The `socketcan` crate as `src/v850/rscan.rs` uses it. It is not part of the sources, so
frames and the opening of an interface are parameters, `Lawful` says what is relied on,
and `plain` is one implementation.

A socket is a stream of what its reads return, one result for each call, and records
what was sent.
-/

namespace FuguexPeripheral.V850

/-- An open socket. Errors are the text that `{:?}` prints for them. -/
structure CANSocket (Frame : Type) where
  /-- What `set_read_timeout` returns. -/
  readTimeout : Except String Unit
  /-- What the calls of `read_frame` return, in order. -/
  incoming : Stream' (Except String Frame)
  /-- What the calls of `write_frame` return, in order. -/
  outgoing : Stream' (Except String Unit)
  sent : List Frame

namespace CANSocket

variable {Frame : Type}

def readFrame (socket : CANSocket Frame) : Except String Frame × CANSocket Frame :=
  (socket.incoming.head, { socket with incoming := socket.incoming.tail })

def writeFrame (socket : CANSocket Frame) (frame : Frame) :
    Except String Unit × CANSocket Frame :=
  match socket.outgoing.head with
  | .ok () =>
    (.ok (), { socket with outgoing := socket.outgoing.tail, sent := socket.sent ++ [frame] })
  | .error e => (.error e, { socket with outgoing := socket.outgoing.tail })

end CANSocket

structure SocketCan where
  /-- `CANFrame`. -/
  Frame : Type
  /-- `CANFrame::new`: identifier, data, remote request, error. -/
  newFrame : UInt32 → List UInt8 → Bool → Bool → Except String Frame
  id : Frame → UInt32
  data : Frame → List UInt8
  /-- `CANSocket::open`. -/
  openSocket : String → Except String (CANSocket Frame)

namespace SocketCan

/-- What the code relies on: a data frame is built from an identifier of at most 29 bits
and at most 8 bytes, and keeps both. -/
structure Lawful (api : SocketCan) : Prop where
  newFrame_isOk : ∀ id data, id ≤ 0x1FFFFFFF → data.length ≤ 8 →
    ∃ frame, api.newFrame id data false false = .ok frame
  id_newFrame : ∀ id data frame, api.newFrame id data false false = .ok frame →
    api.id frame = id
  data_newFrame : ∀ id data frame, api.newFrame id data false false = .ok frame →
    api.data frame = data

theorem Lawful.exists_newFrame {api : SocketCan} (h : api.Lawful) {id : UInt32} {data : List UInt8}
    (hid : id ≤ 0x1FFFFFFF) (hdata : data.length ≤ 8) :
    ∃ frame, api.newFrame id data false false = .ok frame ∧ api.id frame = id ∧
      api.data frame = data := by
  obtain ⟨frame, hframe⟩ := h.newFrame_isOk id data hid hdata
  exact ⟨frame, hframe, h.id_newFrame _ _ _ hframe, h.data_newFrame _ _ _ hframe⟩

/-- A frame is its identifier and its data. No interface can be opened. -/
def plain : SocketCan where
  Frame := UInt32 × List UInt8
  newFrame id data _ _ :=
    if 8 < data.length then .error "TooMuchData"
    else if 0x1FFFFFFF < id then .error "IDTooLarge"
    else .ok (id, data)
  id := Prod.fst
  data := Prod.snd
  openSocket _ := .error "LookupError"

theorem plain_newFrame_eq_ok (id : UInt32) (data : List UInt8) (frame : UInt32 × List UInt8) :
    plain.newFrame id data false false = .ok frame ↔
      (id ≤ 0x1FFFFFFF ∧ data.length ≤ 8) ∧ (id, data) = frame := by
  unfold plain
  dsimp only
  split
  next h => simp [Nat.not_le.mpr h]
  next h =>
    split
    next hid => simp [UInt32.not_le.mpr hid]
    next hid => simp [UInt32.not_lt.mp hid, Nat.not_lt.mp h]

theorem lawful_plain : plain.Lawful where
  newFrame_isOk id data hid hdata :=
    ⟨(id, data), (plain_newFrame_eq_ok id data _).mpr ⟨⟨hid, hdata⟩, rfl⟩⟩
  id_newFrame id data frame h := by
    obtain ⟨-, rfl⟩ := (plain_newFrame_eq_ok id data frame).mp h
    rfl
  data_newFrame id data frame h := by
    obtain ⟨-, rfl⟩ := (plain_newFrame_eq_ok id data frame).mp h
    rfl

end SocketCan

end FuguexPeripheral.V850
