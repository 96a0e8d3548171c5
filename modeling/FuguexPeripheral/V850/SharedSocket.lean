import FuguexPeripheral.V850.Clones
import FuguexPeripheral.V850.Transmit
import FuguexPeripheral.V850.VirtualCan

/-!
# Emulators that share a socket

In vcan mode the clones of an emulator share one socket. A read of RFID0 or of a data
register takes the next result of it, whichever thread makes the read.

Results:
1. `step_of_frame`, `frame_of_step`: when such a read goes on, and what it shows.
2. `wired_of_step`: no other step takes from the socket or sends to it.
3. `sockets_deliver`: across all threads every frame goes to one read, in order, and nothing
   is sent.
-/

namespace FuguexPeripheral.V850

open ByteStore Fallible Runs RSCan Interleaving
open Polling (MemoryPollingPeripheral Threads Act)

variable {api : SocketCan} {O : Order} {κ : Type}

/-- The socket that a read uses: the open one, or else a new one. -/
def RSCan.port (can : RSCan api) : Except Error (CANSocket api.Frame) :=
  can.connect.map Prod.fst

/-- In vcan mode with a socket. -/
structure Wired (can : RSCan api) (socket : CANSocket api.Frame) : Prop where
  mode : can.selectVcanMode = true
  port : can.port = .ok socket

/-- The read takes a frame from the socket. -/
def isTaking (address : Address) : Bool :=
  address = Reg.rfid0.addr || isRfdf address

/-- The event takes a frame from the socket. -/
def Event.isTaking : Event O → Bool
  | .input address => V850.isTaking address
  | _ => false

/-- What a read shows of a frame: its identifier and its first eight bytes. -/
def frameContent (frame : api.Frame) : Content :=
  (api.id frame, (api.data frame).take 8)

/-- A frame that a read of `address` can show: the data registers need eight bytes. -/
def Showable (address : Address) (frame : api.Frame) : Prop :=
  isRfdf address → 8 ≤ (api.data frame).length

namespace SharedSocketLemmas

variable {s t : System api O} {socket : CANSocket api.Frame}

theorem exists_connect {can : RSCan api} (h : can.port = .ok socket) :
    ∃ can', can.connect = .ok (socket, can') := by
  obtain ⟨⟨socket', can'⟩, hconnect, rfl⟩ := exists_of_map_eq_ok h
  exact ⟨can', hconnect⟩

/-- The socket of a peripheral depends on what it has open and on its interface. -/
theorem port_congr {can can' : RSCan api} (hsocket : can'.socket = can.socket)
    (hinterface : can'.interface = can.interface) : can'.port = can.port := by
  rw [port, port, connect, connect, hsocket, hinterface]
  cases can.socket with
  | some socket => rfl
  | none =>
    cases hopen : api.openSocket can.interface with
    | error e => simp [Except.map]
    | ok socket => simp [Except.map]

theorem currentFrame_of_wired {can : RSCan api} (h : Wired can socket) {frame : api.Frame}
    (htimeout : socket.readTimeout = .ok ()) (hread : socket.incoming.head = .ok frame) :
    ∃ can', can.currentFrame = .ok (.ok (frame, can')) ∧ Wired can' socket.readFrame.2 := by
  obtain ⟨can', hconnect⟩ := exists_connect h.port
  refine ⟨_, currentFrame_of_vcan h.mode hconnect htimeout hread, ?_, rfl⟩
  exact (mode_of_connect hconnect).trans h.mode

/-- A read of the socket that goes on has found a frame. -/
theorem exists_frame {can : RSCan api} (h : Wired can socket)
    {r : Except Error (api.Frame × RSCan api)} (hr : can.currentFrame = .ok r) :
    socket.readTimeout = .ok () ∧ ∃ frame, socket.incoming.head = .ok frame := by
  obtain ⟨can', hconnect⟩ := exists_connect h.port
  simp only [currentFrame, h.mode, if_true, hconnect] at hr
  obtain ⟨_, htimeout, hr⟩ := exists_of_bind_eq_ok hr
  obtain ⟨frame, hread, -⟩ := exists_of_bind_eq_ok hr
  constructor
  · cases hset : socket.readTimeout with
    | ok _ => rfl
    | error e =>
      rw [hset] at htimeout
      cases htimeout
  · cases hhead : socket.incoming.head with
    | ok frame => exact ⟨frame, rfl⟩
    | error e =>
      rw [CANSocket.readFrame, hhead] at hread
      cases hread

theorem isTaking_iff {address : Address} :
    isTaking address = true ↔ address = Reg.rfid0.addr ∨ isRfdf address := by
  rw [isTaking, Bool.or_eq_true, decide_eq_true_iff, decide_eq_true_iff]

/-- A read that takes a frame goes on when the socket has one that it can show, and shows
it. -/
theorem step_of_frame (h : Wired s.can socket) {address : Address}
    (htakes : isTaking address = true) {frame : api.Frame}
    (htimeout : socket.readTimeout = .ok ()) (hread : socket.incoming.head = .ok frame)
    (hshow : Showable address frame) :
    ∃ can', s.step (.input address) =
        .ok ⟨can', (frameContent frame).shown address s.state⟩ ∧
      Wired can' socket.readFrame.2 := by
  obtain ⟨can', hframe, hwired⟩ := currentFrame_of_wired h htimeout hread
  refine ⟨can', ?_, hwired⟩
  rcases isTaking_iff.mp htakes with rfl | hrfdf
  · rw [System.step, handleInput_rfid0, inputRfid0_ok _ hframe]
    simp [Content.shown, frameContent, Except.map]
  · have hdata : readU64LE (api.data frame) =
        .ok (UInt64.ofNat (decode .le ((api.data frame).take 8))) := by
      rw [readU64LE, if_neg (Nat.not_lt.mpr (hshow hrfdf))]
    have hrfid0 : address ≠ Reg.rfid0.addr := by
      rintro rfl
      exact absurd hrfdf (by decide)
    have hrfptr0 : address ≠ Reg.rfptr0.addr := by
      rintro rfl
      exact absurd hrfdf (by decide)
    rw [System.step, handleInput_rfdf _ _ hrfdf, inputRfdf_ok _ hframe hdata]
    simp [Content.shown, frameContent, hrfid0, hrfptr0, Except.map]

/-- A read that takes a frame and goes on has found one that it can show. -/
theorem frame_of_step (h : Wired s.can socket) {address : Address}
    (htakes : isTaking address = true) (hstep : s.step (.input address) = .ok t) :
    socket.readTimeout = .ok () ∧ ∃ frame, socket.incoming.head = .ok frame ∧
      Showable address frame := by
  obtain ⟨access, hok, -⟩ := exists_of_map_eq_ok hstep
  rcases isTaking_iff.mp htakes with rfl | hrfdf
  · rw [handleInput_rfid0] at hok
    obtain ⟨r, hr, -⟩ := exists_of_bind_eq_ok hok
    obtain ⟨htimeout, frame, hread⟩ := exists_frame h hr
    exact ⟨htimeout, frame, hread, fun hrfdf => absurd hrfdf (by decide)⟩
  · rw [handleInput_rfdf _ _ hrfdf] at hok
    obtain ⟨r, hr, hrest⟩ := exists_of_bind_eq_ok hok
    obtain ⟨htimeout, frame, hread⟩ := exists_frame h hr
    refine ⟨htimeout, frame, hread, fun _ => Nat.not_lt.mp fun hlt => ?_⟩
    obtain ⟨can', hframe, -⟩ := currentFrame_of_wired h htimeout hread
    cases hr.symm.trans hframe
    -- fewer than eight bytes: `read_u64` fails, and its `unwrap` panics
    have hdata : readU64LE (api.data frame) = .error "failed to fill whole buffer" := by
      rw [readU64LE, if_pos hlt]
    obtain ⟨data, hdata', -⟩ := exists_of_bind_eq_ok hrest
    rw [hdata] at hdata'
    cases hdata'

/-- No other read takes a frame. -/
theorem can_of_input {address : Address} (htakes : isTaking address = false) {access : Access api O}
    (h : s.can.handleInput s.state address = .ok access) : access.can = s.can := by
  have hne : address ≠ Reg.rfid0.addr ∧ ¬ isRfdf address := by
    rw [← not_or, ← isTaking_iff, htakes]
    exact Bool.false_ne_true
  unfold handleInput at h
  split_ifs at h
  · cases h
    rfl
  · cases h
    rfl
  · cases h
    rfl
  · exact FifoStatusLemmas.can_of_inputRfsts0 h
  · exact FifoStatusLemmas.can_of_inputRfptr0 h
  · exact absurd ‹_› hne.1
  · exact absurd ‹_› hne.2
  · cases h
    rfl

/-- In vcan mode a write that goes on leaves the peripheral: a request for a frame does not
get to the socket, and there is no message to release. -/
theorem can_of_output (hmode : s.can.selectVcanMode = true) {address : Address}
    {value : List UInt8} {access : Access api O}
    (h : s.can.handleOutput s.state address value = .ok access) : access.can = s.can := by
  unfold handleOutput at h
  split_ifs at h
  · cases h
    rfl
  · cases h
    rfl
  · cases value with
    | nil => cases h
    | cons tmcValue rest =>
      by_cases hbit : tmcValue &&& 0x01 ≠ 0
      · rw [TransmitLemmas.outputTmc0_panics _ _ rest hbit] at h
        cases h
      · simp only [outputTmc0, hbit, if_false] at h
        cases h
        rfl
  · have hqueue := s.can.queue_of_vcan hmode
    simp [outputRfpctr0, dequeueCanMsg, hqueue] at h
  · cases h
    rfl

/-- No other step takes from the socket or sends to it. -/
theorem wired_of_step (h : Wired s.can socket) {e : Event O} (htakes : e.isTaking = false)
    (hstep : s.step e = .ok t) : Wired t.can socket := by
  cases e with
  | enqueue canId data =>
    simp only [System.step, enqueueCanMsg, h.mode, dite_true, Except.map] at hstep
    cases hstep
    exact h
  | dequeue | clear =>
    cases hstep
    refine ⟨h.mode, ?_⟩
    rw [← h.port]
    exact port_congr rfl rfl
  | init | execute =>
    cases hstep
    exact h
  | input address =>
    obtain ⟨access, hok, rfl⟩ := exists_of_map_eq_ok hstep
    rw [can_of_input htakes hok]
    exact h
  | output address value =>
    obtain ⟨access, hok, rfl⟩ := exists_of_map_eq_ok hstep
    rw [can_of_output h.mode hok]
    exact h

/-! ## Runs of the threads -/

end SharedSocketLemmas

/-- The step takes a frame from the socket. -/
def takesFrame : ThreadEvent κ O → Bool
  | .act _ e => (toEvent e).isTaking
  | .clone _ _ => false

/-- The number of frames that a run has taken from the socket. -/
def framesTaken (tr : List (Threads κ (RSCan api) O × ThreadEvent κ O)) : Nat :=
  tr.countP fun x => takesFrame x.2

/-- The socket after `n` reads. -/
def CANSocket.after {Frame : Type} (socket : CANSocket Frame) (n : Nat) : CANSocket Frame :=
  { socket with incoming := socket.incoming.drop n }

namespace SharedSocketLemmas

variable {s t : Threads κ (RSCan api) O}
  {tr : List (Threads κ (RSCan api) O × ThreadEvent κ O)} {socket : CANSocket api.Frame}

theorem readFrame_after (n : Nat) : (socket.after n).readFrame.2 = socket.after (n + 1) := by
  simp only [CANSocket.readFrame, CANSocket.after, Stream'.tail_drop']

/-- A step that takes a frame leaves the socket behind it. -/
theorem wired_of_taking {s t : System api O} (h : Wired s.can socket) {e : Event O}
    (htakes : e.isTaking = true) (hstep : s.step e = .ok t) : Wired t.can socket.readFrame.2 := by
  cases e with
  | input address =>
    obtain ⟨htimeout, frame, hread, hshow⟩ := frame_of_step h htakes hstep
    obtain ⟨can', hshown, hwired⟩ := step_of_frame h htakes htimeout hread hshow
    cases hshown.symm.trans hstep
    exact hwired
  | enqueue | dequeue | clear | init | output | execute => cases htakes

/-- A step of a thread that leaves the lock free takes a frame from the socket or none. -/
theorem wired_of_act {q r : Threads κ (RSCan api) O} {i : κ} {e : Polling.Event CanOperation O}
    {can can' : RSCan api} {n : Nat} (hq : q.shared = hooked can)
    (hw : Wired can (socket.after n)) (h : Step (Act (CanOperation.apply O)) q (.act i e) r)
    (hr : r.shared.peripheral = .free can') :
    r.shared = hooked can' ∧
      Wired can' (socket.after (n + (toEvent e).isTaking.toNat)) := by
  obtain ⟨state, -, ⟨s', hs', hrs, -⟩ | ⟨-, hpoisoned, -⟩⟩ := ClonesLemmas.step_cases hq h
  · rw [hrs] at hr ⊢
    cases hr
    refine ⟨rfl, ?_⟩
    cases htakes : (toEvent e).isTaking with
    | false => exact wired_of_step (s := ⟨can, state⟩) hw htakes hs'
    | true =>
      have hnext := wired_of_taking (s := ⟨can, state⟩) hw htakes hs'
      rwa [readFrame_after] at hnext
  · cases hr.symm.trans hpoisoned

/-- While the lock is free, the peripheral behind it has the socket less the frames that were
taken. -/
theorem wired_of_run {can₀ : RSCan api} (hs : s.shared = hooked can₀) (hwired : Wired can₀ socket)
    (h : Run (Step (Act (CanOperation.apply O))) s tr t) :
    ∀ can, t.shared.peripheral = .free can →
      t.shared = hooked can ∧ Wired can (socket.after (framesTaken tr)) := by
  refine h.history (fun past q => ∀ can, q.shared.peripheral = .free can →
    q.shared = hooked can ∧ Wired can (socket.after (framesTaken past))) ?_ ?_
  · intro can hfree
    rw [hs] at hfree
    cases hfree
    exact ⟨hs, hwired⟩
  · intro past q x r _ hq hstep can hr
    obtain ⟨can₁, hfree⟩ := Polling.exists_free_of_run (.cons hstep (.nil r)) hr
    obtain ⟨hshared, hw⟩ := hq can₁ hfree
    have hcount : framesTaken (past ++ [(q, x)]) =
        framesTaken past + (takesFrame x).toNat := by
      cases htakes : takesFrame x <;> simp [framesTaken, htakes]
    rw [hcount]
    cases x with
    | clone i j =>
      -- a clone of an emulator has the same peripheral, and takes nothing
      cases hstep with
      | clone _ _ hsame _ _ =>
        rw [hsame] at hr ⊢
        exact hq can hr
    | act i e => exact wired_of_act hshared hw hstep hr

end SharedSocketLemmas

open SharedSocketLemmas

/-- Across all threads the frames of the socket go to the reads of RFID0 and of the data
registers, one to each, in order, and nothing else happens to the socket. The next such read
shows the next frame, or panics when there is none that it can show. -/
theorem sockets_deliver {s t : Threads κ (RSCan api) O}
    {tr : List (Threads κ (RSCan api) O × ThreadEvent κ O)}
    (h : Run (Step (Act (CanOperation.apply O))) s tr t) {can₀ can : RSCan api}
    (hs : s.shared = hooked can₀) {socket : CANSocket api.Frame} (hwired : Wired can₀ socket)
    (ht : t.shared.peripheral = .free can) :
    can.port = .ok (socket.after (framesTaken tr)) ∧
      ∀ i address size w, isTaking address = true →
        Step (Act (CanOperation.apply O)) t (.act i (.read address size)) w →
        (∀ frame, socket.readTimeout = .ok () →
          socket.incoming.get (framesTaken tr) = .ok frame → Showable address frame →
          w.own i = (t.own i).map ((frameContent frame).shown address)) ∧
        (w.own i ≠ none → socket.readTimeout = .ok () ∧ ∃ frame,
          socket.incoming.get (framesTaken tr) = .ok frame ∧ Showable address frame) := by
  obtain ⟨hshared, hw⟩ := wired_of_run hs hwired h can ht
  refine ⟨hw.port, fun i address size w htakes hstep => ?_⟩
  have hhead : (socket.after (framesTaken tr)).incoming.head =
      socket.incoming.get (framesTaken tr) := Stream'.head_drop _ _
  obtain ⟨state, hown, hcases⟩ := ClonesLemmas.step_cases hshared hstep
  refine ⟨fun frame htimeout hread hshow => ?_, fun hgoes => ?_⟩
  · obtain ⟨can', hstep', -⟩ := step_of_frame (s := ⟨can, state⟩) hw htakes htimeout
      (hhead.trans hread) hshow
    obtain ⟨s', hs', -, hown'⟩ | ⟨hpanic, -, -⟩ := hcases
    · cases hstep'.symm.trans hs'
      rw [hown', hown]
      rfl
    · exact absurd hstep' (hpanic _)
  · obtain ⟨s', hs', -, hown'⟩ | ⟨-, -, hnone⟩ := hcases
    · obtain ⟨htimeout, frame, hread, hshow⟩ :=
        frame_of_step (s := ⟨can, state⟩) hw htakes hs'
      exact ⟨htimeout, frame, hhead.symm.trans hread, hshow⟩
    · exact absurd hnone hgoes

/-- The socket of `vcan0`. -/
def vcanSocket : CANSocket vcan0.Frame :=
  ⟨.ok (), Stream'.const (.ok vcanFrame), Stream'.const (.ok ()), []⟩

/-- The first of two threads reads an identifier. -/
theorem sockets_deliver_vcan0 : ∃ can : RSCan vcan0,
    can.port = .ok (vcanSocket.after (framesTaken
      [((⟨hooked (byDefault vcan0), fun _ => some (blank .le)⟩ :
          Threads Bool (RSCan vcan0) .le), .act false (.read Reg.rfid0.addr 4))])) := by
  have hwired : Wired (byDefault vcan0) vcanSocket := ⟨rfl, rfl⟩
  have hshow : @Showable vcan0 Reg.rfid0.addr vcanFrame :=
    fun hrfdf => absurd hrfdf (by decide)
  have htakes : isTaking Reg.rfid0.addr = true := by decide
  obtain ⟨can, hsystem, -⟩ := step_of_frame (s := ⟨byDefault vcan0, blank .le⟩) hwired htakes
    rfl rfl hshow
  let w : Threads Bool (RSCan vcan0) .le := ⟨hooked can, fun i =>
    if i then some (blank .le)
    else some ((@frameContent vcan0 vcanFrame).shown Reg.rfid0.addr (blank .le))⟩
  have hstep : Step (Act (CanOperation.apply .le))
      ⟨hooked (byDefault vcan0), fun _ => some (blank .le)⟩
      (.act false (.read Reg.rfid0.addr 4)) w :=
    step_of_system hsystem rfl rfl rfl rfl fun k hk => by
      rw [Bool.eq_true_of_not_eq_false hk]
      rfl
  exact ⟨can, (sockets_deliver (.cons hstep (.nil w)) rfl hwired rfl).1⟩

end FuguexPeripheral.V850
