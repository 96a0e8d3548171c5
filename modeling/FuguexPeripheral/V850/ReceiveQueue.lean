import FuguexPeripheral.V850.Accesses

/-!
# The receive FIFO

In queued mode the firmware receives what the user of the emulator put into the queue:
it reads the registers of the message at the head, as often as it likes, and a write to
RFPCTR0 takes that message away.

The abstract queue is the list of messages: those enqueued so far less as many as there
were writes to RFPCTR0. `represents_of_run` ties the queue of frames to it.

Results:
1. `step_delivers`: what a permitted event does, from the head of the queue.
2. `represents_of_run`: the queue after any run.
3. `fifo_delivers`: every message is delivered once, in order.
-/

namespace FuguexPeripheral.V850

open ByteStore Runs RSCan

/-- What `enqueue_can_msg` is given. -/
structure Message where
  canId : UInt32
  data : UInt64
  deriving DecidableEq, Repr

/-- The identifier and the bytes of a message. -/
def Message.content (O : Order) (message : Message) : UInt32 × List UInt8 :=
  (message.canId, encode O 8 message.data.toNat)

variable {api : SocketCan} {O : Order}

/-- The identifiers and the bytes of the queued frames. -/
def RSCan.contents (can : RSCan api) : List (UInt32 × List UInt8) :=
  can.dataQueue.map fun frame => (api.id frame, api.data frame)

/-! ## Runs -/

/-- The message that an event puts into the queue. -/
def Event.message : Event O → Option Message
  | .enqueue canId data => some ⟨canId, data⟩
  | _ => none

/-- The event is a write to an address. -/
def Event.isOutput : Event O → Bool
  | .output _ _ => true
  | _ => false

/-- The messages enqueued in a trace. -/
def enqueued (tr : List (System api O × Event O)) : List Message :=
  tr.filterMap fun x => x.2.message

/-- The number of writes to RFPCTR0 in a trace. -/
def released (tr : List (System api O × Event O)) : Nat :=
  tr.countP fun x => x.2.isOutput

/-- Messages with an identifier of 11 bits are enqueued at any time. The firmware looks at
the registers of a message, and releases it, while there is one. -/
def Permitted (can : RSCan api) : Event O → Prop
  | .enqueue canId _ => canId ≤ 0x7FF
  | .input address => can.dataQueue ≠ [] ∧
      (address = Reg.rfid0.addr ∨ address = Reg.rfptr0.addr ∨ isRfdf address)
  | .output address _ => can.dataQueue ≠ [] ∧ address = Reg.rfpctr0.addr
  | .execute _ => True
  | _ => False

/-- A permitted step that does not panic. -/
def Receives (s : System api O) (e : Event O) (t : System api O) : Prop :=
  Permitted s.can e ∧ s.step e = .ok t

/-! ## What is delivered -/

/-- A read of `address` shows the message: the register that it belongs to has its value
and nothing else has changed. -/
structure Shows (message : Message) (address : Address) (s t : System api O) : Prop where
  can : t.can = s.can
  rfid0 : address = Reg.rfid0.addr →
    t.state.readU32 Reg.rfid0.addr = message.canId ∧
    s.state.ChangedOnly t.state Reg.rfid0.addr 4
  rfptr0 : address = Reg.rfptr0.addr →
    t.state.readU32 Reg.rfptr0.addr = (8 : UInt32) <<< 28 ∧
    s.state.ChangedOnly t.state Reg.rfptr0.addr 4
  rfdf : isRfdf address →
    t.state.readU32 Reg.rfdf00.addr = message.data.toUInt32 ∧
    t.state.readU32 Reg.rfdf10.addr = (message.data >>> 32).toUInt32 ∧
    s.state.ChangedOnly t.state Reg.rfdf00.addr 8

/-- What a step does when `messages` were enqueued and `k` of them released before. -/
def Delivers (messages : List Message) (k : Nat) (s : System api O) (e : Event O)
    (t : System api O) : Prop :=
  match e with
  | .input address => ∃ message, messages[k]? = some message ∧ Shows message address s t
  | .output _ _ => ∃ message, messages[k]? = some message ∧
      s.can.contents = message.content O :: t.can.contents ∧ t.state = s.state
  | .enqueue canId data =>
      t.can.contents = s.can.contents ++ [Message.content O ⟨canId, data⟩] ∧ t.state = s.state
  | _ => t.can = s.can

/-- The peripheral is in queued mode and its frames are those of `messages`, which have
identifiers of 11 bits. -/
structure Represents (O : Order) (can : RSCan api) (messages : List Message) : Prop where
  mode : can.selectVcanMode = false
  contents : can.contents = messages.map (Message.content O)
  canId : ∀ message ∈ messages, message.canId ≤ 0x7FF

namespace ReceiveQueueLemmas

theorem exists_head {can : RSCan api} {messages : List Message} (h : Represents O can messages)
    (hne : can.dataQueue ≠ []) : ∃ message rest frame frames, messages = message :: rest ∧
      can.dataQueue = frame :: frames ∧ api.id frame = message.canId ∧
      api.data frame = encode O 8 message.data.toNat := by
  have hcontents := h.contents
  cases hq : can.dataQueue with
  | nil => exact absurd hq hne
  | cons frame frames =>
    cases messages with
    | nil => simp [RSCan.contents, hq] at hcontents
    | cons message rest =>
      simp [RSCan.contents, hq, Message.content] at hcontents
      exact ⟨message, rest, frame, frames, rfl, rfl, hcontents.1.1, hcontents.1.2⟩

theorem readU64LE_encode (data : UInt64) : readU64LE (encode .le 8 data.toNat) = .ok data := by
  rw [readU64LE_of_length (length_encode _ _ _), decode_encode]
  simp

theorem step_enqueue (hapi : api.Lawful) {s : System api O} {messages : List Message}
    (h : Represents O s.can messages) {canId : UInt32} (data : UInt64) (hid : canId ≤ 0x7FF) :
    ∃ t, s.step (.enqueue canId data) = .ok t ∧ t.can.selectVcanMode = false ∧
      t.can.contents = s.can.contents ++ [Message.content O ⟨canId, data⟩] ∧
      t.state = s.state := by
  obtain ⟨frame, hnew, hframeId, hframeData⟩ := hapi.exists_message O hid data
  have hmode := h.mode
  refine ⟨⟨{ s.can with
    dataQueue := s.can.dataQueue ++ [frame]
    queue_of_vcan := fun hvcan => by simp [hmode] at hvcan }, s.state⟩, ?_, hmode, ?_, rfl⟩
  · rw [System.step, enqueueCanMsg_of_newFrame hmode hnew]
    rfl
  · simp [RSCan.contents, Message.content, hframeId, hframeData]

section Head

variable {s : System api .le} {message : Message} {frame : api.Frame}

theorem shows_rfid0 (hmode : s.can.selectVcanMode = false)
    (hhead : s.can.dataQueue.head? = some frame) (hid : api.id frame = message.canId)
    (hle : message.canId ≤ 0x7FF) :
    ∃ t, s.step (.input Reg.rfid0.addr) = .ok t ∧ Shows message Reg.rfid0.addr s t := by
  have hword : rfidWord (api.id frame) = message.canId := by rw [hid, rfidWord_eq_self hle]
  refine ⟨⟨s.can, s.state.writeU32 Reg.rfid0.addr message.canId⟩, ?_, rfl, ?_, ?_, ?_⟩
  · rw [System.step, handleInput_rfid0_of_head _ hmode hhead, hword]
    rfl
  · exact fun _ => ⟨PCodeState.readU32_writeU32 _ _ _, PCodeState.changedOnly_write _ _ _ _⟩
  · exact fun hcontra => by simp [Reg.addr_inj] at hcontra
  · exact fun hcontra => absurd hcontra (by decide)

theorem shows_rfptr0 (hhead : s.can.dataQueue.head? = some frame)
    (hlen : (api.data frame).length = 8) :
    ∃ t, s.step (.input Reg.rfptr0.addr) = .ok t ∧ Shows message Reg.rfptr0.addr s t := by
  refine ⟨⟨s.can, s.state.writeU32 Reg.rfptr0.addr ((8 : UInt32) <<< 28)⟩, ?_, rfl, ?_, ?_, ?_⟩
  · rw [System.step, handleInput_rfptr0, inputRfptr0_ok _ hhead hlen]
    rfl
  · exact fun hcontra => by simp [Reg.addr_inj] at hcontra
  · exact fun _ => ⟨PCodeState.readU32_writeU32 _ _ _, PCodeState.changedOnly_write _ _ _ _⟩
  · exact fun hcontra => absurd hcontra (by decide)

theorem shows_rfdf (hmode : s.can.selectVcanMode = false)
    (hhead : s.can.dataQueue.head? = some frame)
    (hdata : api.data frame = encode .le 8 message.data.toNat) {address : Address}
    (hrfdf : isRfdf address) :
    ∃ t, s.step (.input address) = .ok t ∧ Shows message address s t := by
  have hread : readU64LE (api.data frame) = .ok message.data := by
    rw [hdata, readU64LE_encode]
  obtain ⟨hlow, hhigh⟩ := PCodeState.readU32_write_halves s.state Reg.rfdf00.addr message.data
  refine ⟨⟨s.can, s.state.write Reg.rfdf00.addr 8 message.data.toNat⟩, ?_, rfl, ?_, ?_, ?_⟩
  · rw [System.step, handleInput_rfdf _ _ hrfdf,
      inputRfdf_ok _ (currentFrame_of_queued hmode hhead) hread]
    rfl
  · rintro rfl
    exact absurd hrfdf (by decide)
  · rintro rfl
    exact absurd hrfdf (by decide)
  · exact fun _ => ⟨hlow, hhigh, PCodeState.changedOnly_write _ _ _ _⟩

end Head

theorem step_input {s : System api .le} {messages : List Message}
    (h : Represents .le s.can messages) (hne : s.can.dataQueue ≠ []) {address : Address}
    (haddress : address = Reg.rfid0.addr ∨ address = Reg.rfptr0.addr ∨ isRfdf address) :
    ∃ t, s.step (.input address) = .ok t ∧ ∃ message, messages[0]? = some message ∧
      Shows message address s t := by
  obtain ⟨message, rest, frame, frames, rfl, hqueue, hid, hdata⟩ := exists_head h hne
  have hhead : s.can.dataQueue.head? = some frame := by simp [hqueue]
  have hlen : (api.data frame).length = 8 := by simp [hdata]
  have hshows : ∃ t, s.step (.input address) = .ok t ∧ Shows message address s t := by
    rcases haddress with rfl | rfl | hrfdf
    · exact shows_rfid0 h.mode hhead hid (h.canId _ List.mem_cons_self)
    · exact shows_rfptr0 hhead hlen
    · exact shows_rfdf h.mode hhead hdata hrfdf
  obtain ⟨t, hstep, hshows⟩ := hshows
  exact ⟨t, hstep, message, rfl, hshows⟩

theorem step_output {s : System api O} {messages : List Message}
    (h : Represents O s.can messages) (hne : s.can.dataQueue ≠ []) (value : List UInt8) :
    ∃ t, s.step (.output Reg.rfpctr0.addr value) = .ok t ∧ t.can.selectVcanMode = false ∧
      ∃ message, messages[0]? = some message ∧
        s.can.contents = message.content O :: t.can.contents ∧ t.state = s.state := by
  obtain ⟨message, rest, frame, frames, rfl, hqueue, hid, hdata⟩ := exists_head h hne
  refine ⟨⟨s.can.dequeueCanMsg.2, s.state⟩, ?_, h.mode, message, rfl, ?_, rfl⟩
  · rw [System.step, handleOutput_rfpctr0, outputRfpctr0_of_cons _ hqueue]
    rfl
  · simp [RSCan.contents, dequeueCanMsg, hqueue, hid, hdata, Message.content]

/-- A permitted event does not panic and delivers from the head of the queue. -/
theorem step_delivers (hapi : api.Lawful) {s : System api .le} {messages : List Message}
    (h : Represents .le s.can messages) {e : Event .le} (he : Permitted s.can e) :
    ∃ t, s.step e = .ok t ∧ t.can.selectVcanMode = false ∧ Delivers messages 0 s e t := by
  cases e with
  | enqueue canId data => exact step_enqueue hapi h data he
  | input address =>
    obtain ⟨t, hstep, message, hmessage, hshows⟩ := step_input h he.1 he.2
    exact ⟨t, hstep, hshows.can ▸ h.mode, message, hmessage, hshows⟩
  | output address value =>
    obtain ⟨hne, rfl⟩ := he
    exact step_output h hne value
  | execute state => exact ⟨_, rfl, h.mode, rfl⟩
  | dequeue | clear | init => exact he.elim

/-- The queue of messages after a step. -/
theorem represents_of_delivers {s t : System api .le} {messages : List Message}
    (h : Represents .le s.can messages) {e : Event .le} (he : Permitted s.can e)
    (hmode : t.can.selectVcanMode = false) (hd : Delivers messages 0 s e t) :
    ∃ messages', Represents .le t.can messages' := by
  cases e with
  | enqueue canId data =>
    refine ⟨messages ++ [⟨canId, data⟩], hmode, by simp [hd.1, h.contents], ?_⟩
    intro message hmem
    rcases List.mem_append.mp hmem with hmem | hmem
    · exact h.canId message hmem
    · rw [List.mem_singleton.mp hmem]
      exact he
  | input address =>
    obtain ⟨_, _, hshows⟩ := hd
    exact ⟨messages, hshows.can ▸ h⟩
  | output address value =>
    obtain ⟨message, hmessage, hcontents, -⟩ := hd
    cases messages with
    | nil => cases hmessage
    | cons first rest =>
      cases hmessage
      rw [h.contents] at hcontents
      exact ⟨rest, hmode, (List.tail_eq_of_cons_eq hcontents).symm,
        fun m hm => h.canId m (List.mem_cons_of_mem _ hm)⟩
  | execute state =>
    have hcan : t.can = s.can := hd
    exact ⟨messages, hcan ▸ h⟩
  | dequeue | clear | init => exact he.elim

/-- What a step of a run delivers. -/
theorem delivers_of_receives (hapi : api.Lawful) {s t : System api .le} {messages : List Message}
    (h : Represents .le s.can messages) {e : Event .le} (hstep : Receives s e t) :
    t.can.selectVcanMode = false ∧ Delivers messages 0 s e t := by
  obtain ⟨t', hok, hmode, hd⟩ := step_delivers hapi h hstep.1
  cases hok.symm.trans hstep.2
  exact ⟨hmode, hd⟩

theorem content_injective (O : Order) : Function.Injective (Message.content O) := by
  rintro ⟨canId, data⟩ ⟨canId', data'⟩ h
  simp only [Message.content, Prod.mk.injEq] at h
  have hdecode := congrArg (decode O) h.2
  have hlt := data.toNat_lt
  have hlt' := data'.toNat_lt
  rw [decode_encode, decode_encode, Nat.mod_eq_of_lt hlt, Nat.mod_eq_of_lt hlt'] at hdecode
  rw [h.1, UInt64.toNat_inj.mp hdecode]

/-- The queue holds messages. -/
def Held (s : System api .le) : Prop :=
  ∃ messages, Represents .le s.can messages

theorem held_newQueued (m : PCodeState .le) : Held ⟨newQueued api, m⟩ :=
  ⟨[], rfl, rfl, fun _ hm => absurd hm List.not_mem_nil⟩

theorem held_of_receives (hapi : api.Lawful) (s : System api .le) (e : Event .le)
    (t : System api .le) (h : Held s) (hstep : Receives s e t) : Held t := by
  obtain ⟨messages, hs⟩ := h
  obtain ⟨hmode, hd⟩ := delivers_of_receives hapi hs hstep
  exact represents_of_delivers hs hstep.1 hmode hd

/-- A step that is no release leaves the queue or puts a message at its end. -/
theorem contents_of_receives (hapi : api.Lawful) (s : System api .le) (e : Event .le)
    (t : System api .le) (h : Held s) (hstep : Receives s e t) (hput : e.isOutput = false) :
    t.can.contents = s.can.contents ++ (e.message.map (Message.content .le)).toList := by
  obtain ⟨messages, hs⟩ := h
  obtain ⟨-, hd⟩ := delivers_of_receives hapi hs hstep
  cases e with
  | enqueue canId data => exact hd.1
  | input address =>
    obtain ⟨_, _, hshows⟩ := hd
    simp [Event.message, hshows.can]
  | output address value => cases hput
  | execute state =>
    have hcan : t.can = s.can := hd
    simp [Event.message, hcan]
  | dequeue | clear | init => exact hstep.1.elim

/-- A release takes the head of the queue. -/
theorem head_of_receives (hapi : api.Lawful) (s : System api .le) (e : Event .le)
    (t : System api .le) (h : Held s) (hstep : Receives s e t) (htake : e.isOutput = true) :
    e.message.map (Message.content .le) = none ∧ ∃ c, s.can.contents = c :: t.can.contents := by
  obtain ⟨messages, hs⟩ := h
  obtain ⟨-, hd⟩ := delivers_of_receives hapi hs hstep
  cases e with
  | output address value =>
    obtain ⟨message, -, hhead, -⟩ := hd
    exact ⟨rfl, _, hhead⟩
  | enqueue | input | execute | dequeue | clear | init => cases htake

/-- The messages of a run that are still queued. -/
theorem represents_of_run (hapi : api.Lawful) {m : PCodeState .le} {s : System api .le}
    {tr : List (System api .le × Event .le)} (h : Run Receives ⟨newQueued api, m⟩ tr s) :
    Represents .le s.can ((enqueued tr).drop (released tr)) := by
  have hqueue := h.queue (fun q => q.can.contents) (fun e => e.message.map (Message.content .le))
    Event.isOutput Held (held_newQueued m) (held_of_receives hapi) (contents_of_receives hapi)
    (head_of_receives hapi)
  have hcontents : s.can.contents =
      ((enqueued tr).drop (released tr)).map (Message.content .le) := by
    rw [hqueue, List.map_drop, enqueued, List.map_filterMap]
    rfl
  obtain ⟨messages, hs⟩ := h.invariant Held (held_of_receives hapi) (held_newQueued m)
  have heq : messages = (enqueued tr).drop (released tr) :=
    List.map_injective_iff.mpr (content_injective .le) (hs.contents.symm.trans hcontents)
  exact heq ▸ hs

end ReceiveQueueLemmas

open ReceiveQueueLemmas

/-- Every message that is enqueued is delivered once, in order: whatever happens next in a
run, it does not panic, and reads and releases concern the first message that was not
released yet. -/
theorem fifo_delivers (hapi : api.Lawful) {m : PCodeState .le} {s : System api .le}
    {tr : List (System api .le × Event .le)} (h : Run Receives ⟨newQueued api, m⟩ tr s)
    {e : Event .le} (he : Permitted s.can e) :
    ∃ t, s.step e = .ok t ∧ Delivers (enqueued tr) (released tr) s e t := by
  obtain ⟨t, hstep, -, hd⟩ := step_delivers hapi (represents_of_run hapi h) he
  refine ⟨t, hstep, ?_⟩
  cases e with
  | input address | output address value => simpa [Delivers] using hd
  | enqueue | execute | dequeue | clear | init => exact hd

/-- A state with nothing in it. -/
def blank (O : Order) : PCodeState O :=
  ⟨fun _ _ => 0, 0⟩

/-- One message is queued. -/
def oneQueued : System SocketCan.plain .le :=
  ⟨{ newQueued SocketCan.plain with
      dataQueue := [(0x123, encode .le 8 0x0807060504030201)]
      queue_of_vcan := fun hvcan => by cases hvcan }, blank .le⟩

theorem fifo_delivers_first :
    ∃ t, oneQueued.step (.input Reg.rfid0.addr) = .ok t ∧
      Delivers [⟨0x123, 0x0807060504030201⟩] 0 oneQueued (.input Reg.rfid0.addr) t := by
  have hid : (0x123 : UInt32) ≤ 0x7FF := by decide
  have hrun : Run Receives ⟨newQueued SocketCan.plain, blank .le⟩
      [(⟨newQueued SocketCan.plain, blank .le⟩, .enqueue 0x123 0x0807060504030201)] oneQueued :=
    .cons ⟨hid, rfl⟩ (.nil _)
  exact fifo_delivers SocketCan.lawful_plain hrun ⟨List.cons_ne_nil _ _, .inl rfl⟩

end FuguexPeripheral.V850
