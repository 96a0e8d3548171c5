import FuguexPeripheral.V850.VirtualCan

/-!
# The data registers in vcan mode

A frame from a socket has up to eight bytes. A read of a data register takes eight bytes
from it as a little-endian number, and writes that number in the byte order of the state.

Results:
1. `inputRfdf_short`: a frame of fewer bytes ends the read.
2. `halves_eight`, `halves_eq_swap`: the two words of eight bytes, in each order.
3. `showsFrame_iff`: the frames that are shown, exactly.
-/

namespace FuguexPeripheral.V850

open ByteStore RSCan

variable {api : SocketCan} {O : Order}

/-- The data of a frame, filled up to eight bytes with zeros. -/
def padded (data : List UInt8) : List UInt8 :=
  data ++ List.replicate (8 - data.length) 0

/-- The words of RFDF00 and RFDF10 for the data of a frame. The first byte is the lowest. -/
def dataWords (data : List UInt8) : UInt32 × UInt32 :=
  (UInt32.ofNat (decode .le ((padded data).take 4)),
    UInt32.ofNat (decode .le ((padded data).drop 4)))

/-- A read of `input` returns, and RFDF00 and RFDF10 have the data of the frame. -/
def ShowsFrame (can : RSCan api) (state : PCodeState O) (input : Address) (frame : api.Frame) :
    Prop :=
  ∃ access, can.handleInput state input = .ok access ∧ access.result = .ok () ∧
    (access.state.readU32 Reg.rfdf00.addr, access.state.readU32 Reg.rfdf10.addr) =
      dataWords (api.data frame)

namespace FrameDataLemmas

variable {can can' : RSCan api} {frame : api.Frame}

/-- A frame of fewer than eight bytes ends the read. -/
theorem inputRfdf_short (state : PCodeState O) (h : can.currentFrame = .ok (.ok (frame, can')))
    (hlen : (api.data frame).length < 8) :
    can.inputRfdf state = .error (.unwrapErr "failed to fill whole buffer") := by
  have hread : readU64LE (api.data frame) = .error "failed to fill whole buffer" := by
    rw [readU64LE, if_pos hlen]
  rw [inputRfdf, h]
  simp only [bind, Except.bind, hread, unwrap]

/-- The two halves of the number that eight bytes make. -/
theorem halves_eight {data : List UInt8} (h : data.length = 8) :
    PCodeState.halves .le (UInt64.ofNat (decode .le data)) = dataWords data := by
  have htake : (data.take 4).length = 4 := by
    rw [List.length_take, h]
    rfl
  have hlow := decode_lt .le (data.take 4)
  have hhigh := decode_lt .le (data.drop 4)
  have hsplit := decode_le_append (data.take 4) (data.drop 4)
  rw [List.take_append_drop, htake] at hsplit
  rw [htake] at hlow
  rw [List.length_drop, h] at hhigh
  have hpad : padded data = data := by simp [padded, h]
  rw [dataWords, hpad, PCodeState.halves, hsplit]
  refine Prod.ext (UInt32.toNat.inj ?_) (UInt32.toNat.inj ?_)
  · simp
  · simp [Nat.shiftRight_eq_div_pow]
    omega

/-- In the other order the two halves change places. -/
theorem halves_eq_swap (O : Order) (v : UInt64) :
    PCodeState.halves O v = PCodeState.halves .le v ↔
      O = .le ∨ (PCodeState.halves .le v).1 = (PCodeState.halves .le v).2 := by
  cases O with
  | le => simp
  | be =>
    simp only [PCodeState.halves, Prod.mk.injEq, reduceCtorEq, false_or]
    exact ⟨fun h => h.2, fun h => ⟨h.symm, h⟩⟩

end FrameDataLemmas

open FrameDataLemmas

/-- The frames that are shown are those of eight bytes, in little-endian order, or with the
same four bytes twice. -/
theorem showsFrame_iff {can can' : RSCan api} {socket : CANSocket api.Frame} {frame : api.Frame}
    (state : PCodeState O) (hmode : can.selectVcanMode = true)
    (hconnect : can.connect = .ok (socket, can')) (htimeout : socket.readTimeout = .ok ())
    (hread : socket.incoming.head = .ok frame) (hlen : (api.data frame).length ≤ 8)
    {input : Address} (hinput : isRfdf input) :
    ShowsFrame can state input frame ↔ (api.data frame).length = 8 ∧
      (O = .le ∨ (dataWords (api.data frame)).1 = (dataWords (api.data frame)).2) := by
  have hframe := currentFrame_of_vcan hmode hconnect htimeout hread
  rw [ShowsFrame, handleInput_rfdf _ _ hinput]
  rcases Nat.lt_or_eq_of_le hlen with hshort | hfull
  · rw [inputRfdf_short state hframe hshort]
    constructor
    · rintro ⟨access, hok, -⟩
      cases hok
    · rintro ⟨hfull, -⟩
      exact absurd hfull (Nat.ne_of_lt hshort)
  · obtain ⟨hlow, hhigh⟩ := PCodeState.readU32_write_halves state Reg.rfdf00.addr
      (UInt64.ofNat (decode .le (api.data frame)))
    have hwords := halves_eq_swap O (UInt64.ofNat (decode .le (api.data frame)))
    rw [halves_eight hfull] at hwords
    rw [inputRfdf_ok state hframe (readU64LE_of_length hfull)]
    constructor
    · rintro ⟨access, hok, -, hshown⟩
      cases hok
      exact ⟨hfull, hwords.mp ((Prod.ext hlow hhigh).symm.trans hshown)⟩
    · rintro ⟨-, hsame⟩
      exact ⟨_, rfl, rfl, (Prod.ext hlow hhigh).trans (hwords.mpr hsame)⟩

theorem showsFrame_iff_vcan0 :
    ShowsFrame (byDefault vcan0) (blank .be) Reg.rfdf10.addr vcanFrame ↔
      (SocketCan.plain.data vcanFrame).length = 8 ∧
        (Order.be = .le ∨ (dataWords (SocketCan.plain.data vcanFrame)).1 =
          (dataWords (SocketCan.plain.data vcanFrame)).2) :=
  showsFrame_iff (blank .be) rfl rfl rfl rfl
    (by decide) (by decide)

/-- A frame of two bytes. -/
def shortFrame : UInt32 × List UInt8 :=
  (0x123, [0x01, 0x02])

/-- Every interface carries that frame. -/
def vcanShort : SocketCan :=
  { SocketCan.plain with
    openSocket := fun _ =>
      .ok ⟨.ok (), Stream'.const (.ok shortFrame), Stream'.const (.ok ()), []⟩ }

/-- A frame of two bytes is not received. -/
theorem not_showsFrame_short :
    ¬ ShowsFrame (byDefault vcanShort) (blank .le) Reg.rfdf00.addr shortFrame := by
  have hframe : (byDefault vcanShort).currentFrame = .ok (.ok (shortFrame, _)) :=
    currentFrame_of_vcan rfl rfl rfl rfl
  have hpanic : (byDefault vcanShort).handleInput (blank .le) Reg.rfdf00.addr =
      .error (.unwrapErr "failed to fill whole buffer") := by
    rw [handleInput_rfdf _ _ (by decide)]
    exact inputRfdf_short (blank .le) hframe (by decide)
  rintro ⟨access, hok, -⟩
  cases hpanic.symm.trans hok

end FuguexPeripheral.V850
