import FuguexPeripheral.Fallible
import FuguexPeripheral.V850.ReceiveQueue

/-!
# The status of the receive FIFO

A read of RFSTS0 shows whether the FIFO is empty and how many messages are in it. The queue
behind the register has no bound, and the count in the register has eight bits.

Results:
1. `step_queue`, `run_queue`: the number of messages after any step and any run.
2. `bit_statusWord`: the word that a read leaves, bit by bit.
3. `readsStatus_of_run`: the status after any run, up to 255 messages and beyond.
-/

namespace FuguexPeripheral.V850

open ByteStore Fallible Masks RSCan

variable {api : SocketCan} {O : Order}

/-! ## Runs -/

/-- The system after a list of events. -/
def System.run (s : System api O) (es : List (Event O)) : Except Panic (System api O) :=
  es.foldlM System.step s

/-- The number of unread messages after an event. -/
def Event.unreadAfter (n : Nat) : Event O → Nat
  | .enqueue _ _ => n + 1
  | .dequeue => n - 1
  | .clear => 0
  | .output address _ => if address = Reg.rfpctr0.addr then n - 1 else n
  | _ => n

/-- The number of unread messages after a list of events, from an empty queue. -/
def unread (es : List (Event O)) : Nat :=
  es.foldl (fun n e => e.unreadAfter n) 0

namespace FifoStatusLemmas

variable {can : RSCan api} {state : PCodeState O} {access : Access api O}

theorem can_of_currentFrame (hmode : can.selectVcanMode = false) {frame : api.Frame}
    {can' : RSCan api} (h : can.currentFrame = .ok (.ok (frame, can'))) : can' = can := by
  cases hhead : can.dataQueue.head? with
  | none => simp [currentFrame, peekCanMsg, hmode, hhead] at h
  | some first =>
    rw [currentFrame_of_queued hmode hhead] at h
    cases h
    rfl

theorem can_of_inputRfsts0 (h : can.inputRfsts0 state = .ok access) : access.can = can := by
  unfold inputRfsts0 at h
  cases hlen : tryIntoU8 can.dataQueue.length with
  | none => simp [hlen] at h
  | some n =>
    simp only [hlen] at h
    cases h
    rfl

theorem can_of_inputRfptr0 (h : can.inputRfptr0 state = .ok access) : access.can = can := by
  unfold inputRfptr0 at h
  cases hhead : can.dataQueue.head? with
  | none => simp [hhead] at h
  | some frame =>
    cases hlen : tryIntoU8 (api.data frame).length with
    | none => simp [hhead, hlen] at h
    | some n =>
      simp only [hhead, hlen] at h
      cases h
      rfl

theorem can_of_inputRfid0 (hmode : can.selectVcanMode = false)
    (h : can.inputRfid0 state = .ok access) : access.can = can := by
  obtain ⟨r, hframe, hrest⟩ := exists_of_bind_eq_ok h
  rcases r with e | ⟨frame, can'⟩
  · cases hrest
    rfl
  · cases hrest
    exact can_of_currentFrame hmode hframe

theorem can_of_inputRfdf (hmode : can.selectVcanMode = false)
    (h : can.inputRfdf state = .ok access) : access.can = can := by
  obtain ⟨r, hframe, hrest⟩ := exists_of_bind_eq_ok h
  rcases r with e | ⟨frame, can'⟩
  · cases hrest
    rfl
  · obtain ⟨data, -, hok⟩ := exists_of_bind_eq_ok hrest
    cases hok
    exact can_of_currentFrame hmode hframe

/-- In queued mode no read changes the peripheral. -/
theorem can_of_handleInput (hmode : can.selectVcanMode = false) {input : Address}
    (h : can.handleInput state input = .ok access) : access.can = can := by
  unfold handleInput at h
  split_ifs at h
  · cases h
    rfl
  · cases h
    rfl
  · cases h
    rfl
  · exact can_of_inputRfsts0 h
  · exact can_of_inputRfptr0 h
  · exact can_of_inputRfid0 hmode h
  · exact can_of_inputRfdf hmode h
  · cases h
    rfl

/-- In queued mode a request for a frame sends nothing. -/
theorem can_of_outputTmc0 (hmode : can.selectVcanMode = false) {value : List UInt8}
    (h : can.outputTmc0 state value = .ok access) : access.can = can := by
  cases value with
  | nil => cases h
  | cons tmcValue rest =>
    unfold outputTmc0 at h
    dsimp only at h
    split_ifs at h with hbit hvcan
    · simp [hmode] at hvcan
    · obtain ⟨datal, -, h₁⟩ := exists_of_bind_eq_ok h
      obtain ⟨datah, -, h₂⟩ := exists_of_bind_eq_ok h₁
      cases h₂
      rfl
    · cases h
      rfl

/-- In queued mode a write changes the peripheral at RFPCTR0 only. -/
theorem can_of_handleOutput (hmode : can.selectVcanMode = false) {output : Address}
    {value : List UInt8} (h : can.handleOutput state output value = .ok access) :
    access.can = if output = Reg.rfpctr0.addr then can.dequeueCanMsg.2 else can := by
  by_cases hrfpctr0 : output = Reg.rfpctr0.addr
  · subst hrfpctr0
    rw [if_pos rfl]
    rw [handleOutput_rfpctr0] at h
    cases hq : can.dataQueue with
    | nil => simp [outputRfpctr0, dequeueCanMsg, hq] at h
    | cons frame rest =>
      rw [outputRfpctr0_of_cons _ hq] at h
      cases h
      rfl
  · rw [if_neg hrfpctr0]
    unfold handleOutput at h
    split_ifs at h
    · cases h
      rfl
    · cases h
      rfl
    · exact can_of_outputTmc0 hmode h
    · cases h
      rfl

end FifoStatusLemmas

open FifoStatusLemmas

/-- What a step does to the number of messages. Queued mode is kept. -/
theorem step_queue {s t : System api O} {e : Event O} (hmode : s.can.selectVcanMode = false)
    (h : s.step e = .ok t) : t.can.selectVcanMode = false ∧
      t.can.dataQueue.length = e.unreadAfter s.can.dataQueue.length := by
  cases e with
  | enqueue canId data =>
    obtain ⟨r, hok, rfl⟩ := exists_of_map_eq_ok h
    obtain ⟨frame, -, -, hmode', hqueue⟩ := enqueueCanMsg_cases hmode hok
    exact ⟨hmode', by simp [hqueue, Event.unreadAfter]⟩
  | dequeue =>
    cases h
    exact ⟨hmode, by simp [dequeueCanMsg, Event.unreadAfter]⟩
  | clear =>
    cases h
    exact ⟨hmode, rfl⟩
  | init =>
    cases h
    exact ⟨hmode, rfl⟩
  | input address =>
    obtain ⟨access, hok, rfl⟩ := exists_of_map_eq_ok h
    rw [can_of_handleInput hmode hok]
    exact ⟨hmode, rfl⟩
  | output address value =>
    obtain ⟨access, hok, rfl⟩ := exists_of_map_eq_ok h
    rw [can_of_handleOutput hmode hok, Event.unreadAfter]
    split_ifs
    · exact ⟨hmode, List.length_tail⟩
    · exact ⟨hmode, rfl⟩
  | execute state =>
    cases h
    exact ⟨hmode, rfl⟩

/-- Queued mode is kept by a run, and the number of messages is that of its events. -/
theorem run_queue {s t : System api O} {es : List (Event O)}
    (hmode : s.can.selectVcanMode = false) (h : s.run es = .ok t) :
    t.can.selectVcanMode = false ∧ t.can.dataQueue.length =
      es.foldl (fun n e => e.unreadAfter n) s.can.dataQueue.length := by
  induction es generalizing s with
  | nil =>
    cases h
    exact ⟨hmode, rfl⟩
  | cons e es ih =>
    rw [System.run, List.foldlM_cons] at h
    obtain ⟨r, hstep, hrest⟩ := exists_of_bind_eq_ok h
    obtain ⟨hmode', hlen⟩ := step_queue hmode hstep
    rw [List.foldl_cons, ← hlen]
    exact ih hmode' hrest

/-! ## Filling the queue -/

/-- The call that enqueues a message. -/
def Message.enqueue (message : Message) : Event O :=
  .enqueue message.canId message.data

/-- Messages with identifiers of 11 bits are enqueued one after another. -/
theorem represents_of_enqueue (hapi : api.Lawful) {s : System api O}
    {messages messages' : List Message} (h : Represents O s.can messages)
    (hid : ∀ message ∈ messages', message.canId ≤ 0x7FF) :
    ∃ t, s.run (messages'.map Message.enqueue) = .ok t ∧
      Represents O t.can (messages ++ messages') ∧ t.state = s.state := by
  induction messages' generalizing s messages with
  | nil => exact ⟨s, rfl, by rwa [List.append_nil], rfl⟩
  | cons message messages' ih =>
    have hfirst := hid message List.mem_cons_self
    obtain ⟨r, hstep, hmode, hcontents, hstate⟩ :=
      ReceiveQueueLemmas.step_enqueue hapi h message.data hfirst
    have hr : Represents O r.can (messages ++ [message]) := by
      refine ⟨hmode, by simp [hcontents, h.contents], fun x hx => ?_⟩
      rcases List.mem_append.mp hx with hx | hx
      · exact h.canId x hx
      · rw [List.mem_singleton.mp hx]
        exact hfirst
    obtain ⟨t, hrun, ht, hsame⟩ := ih hr fun x hx => hid x (List.mem_cons_of_mem _ hx)
    refine ⟨t, ?_, by rwa [List.append_assoc] at ht, hsame.trans hstate⟩
    rw [List.map_cons, System.run, List.foldlM_cons, Message.enqueue, hstep]
    exact hrun

theorem represents_newQueued : Represents O (newQueued api) [] :=
  ⟨rfl, rfl, fun _ hmessage => absurd hmessage List.not_mem_nil⟩

theorem Represents.length_eq {can : RSCan api} {messages : List Message}
    (h : Represents O can messages) : can.dataQueue.length = messages.length := by
  simpa [RSCan.contents] using congrArg List.length h.contents

/-! ## The word -/

/-- The word that a read of RFSTS0 leaves in place of `old`. -/
def statusWord (old : UInt32) (unread : Nat) : UInt32 :=
  if unread = 0 then 0x01 else (old &&& 0xFFFF00FE) ||| (UInt32.ofNat unread <<< (8 : UInt32))

/-- RFSTS0 shows whether there are messages and counts up to `counter`, and the other bits
are the old ones while there are messages. -/
structure StatusShows (unread counter : Nat) (old word : UInt32) : Prop where
  empty : bit word 0 = true ↔ unread = 0
  count : ((word >>> 8) &&& 0xFF).toNat = counter
  kept : unread ≠ 0 → ∀ i, i < 32 → i ≠ 0 → ¬ (8 ≤ i ∧ i < 16) → bit word i = bit old i

namespace FifoStatusLemmas

theorem bit_ofNat (n : Nat) {i : Nat} (hi : i < 32) : bit (UInt32.ofNat n) i = n.testBit i := by
  rw [bit_eq_testBit, UInt32.toNat_ofNat', Nat.testBit_mod_two_pow]
  simp [hi]

/-- The bits that stay while there are messages. -/
theorem bit_mask {i : Nat} (hi : i < 32) :
    bit 0xFFFF00FE i = decide (i ≠ 0 ∧ ¬ (8 ≤ i ∧ i < 16)) := by
  have hall : ∀ i < 32, bit 0xFFFF00FE i = decide (i ≠ 0 ∧ ¬ (8 ≤ i ∧ i < 16)) := by decide
  exact hall i hi

/-- While there are messages, the bits of their number are at 8 and the others are kept. -/
theorem bit_statusWord {old : UInt32} {unread : Nat} (hne : unread ≠ 0)
    {i : Nat} (hi : i < 32) : bit (statusWord old unread) i =
      ((bit old i && decide (i ≠ 0 ∧ ¬ (8 ≤ i ∧ i < 16))) ||
        (decide (8 ≤ i) && unread.testBit (i - 8))) := by
  have hshift : (8 : UInt32) = UInt32.ofNat 8 := rfl
  rw [statusWord, if_neg hne, bit_or, bit_and, bit_mask hi, hshift,
    bit_shiftLeft _ (by decide) hi, bit_ofNat _ (by omega)]

/-- Eight bits of the number are all of it. -/
theorem testBit_of_lt {unread i : Nat} (hlt : unread < 256) (hi : 8 ≤ i) :
    unread.testBit i = false := by
  have hpow : 2 ^ 8 ≤ 2 ^ i := Nat.pow_le_pow_right Nat.two_pos hi
  exact Nat.testBit_lt_two_pow (Nat.lt_of_lt_of_le hlt hpow)

theorem count_statusWord {old : UInt32} {unread : Nat} (hlt : unread < 256) :
    ((statusWord old unread >>> 8) &&& 0xFF).toNat = unread := by
  by_cases hne : unread = 0
  · subst hne
    rw [statusWord, if_pos rfl]
    decide
  · have hcount : ((statusWord old unread >>> 8) &&& 0xFF).toNat =
        (statusWord old unread).toNat / 2 ^ 8 % 2 ^ 8 := by
      rw [toNat_and_low (k := 8) _ rfl, UInt32.toNat_shiftRight, Nat.shiftRight_eq_div_pow]
      rfl
    rw [hcount]
    refine Nat.eq_of_testBit_eq fun i => ?_
    rw [Nat.testBit_mod_two_pow, Nat.testBit_div_two_pow]
    by_cases hi : i < 8
    · have hlt32 : i + 8 < 32 := by omega
      rw [← bit_eq_testBit, bit_statusWord hne hlt32]
      simp [hi]
    · simp [hi, testBit_of_lt hlt (Nat.not_lt.mp hi)]

theorem statusShows_statusWord (old : UInt32) {unread : Nat} (hlt : unread < 256) :
    StatusShows unread unread old (statusWord old unread) where
  empty := by
    by_cases hne : unread = 0
    · subst hne
      simp [statusWord, bit_one]
    · simp [bit_statusWord hne, hne]
  count := count_statusWord hlt
  kept hne i hi hzero hcount := by
    rw [bit_statusWord hne hi]
    by_cases hlow : 8 ≤ i
    · have hhigh : 8 ≤ i - 8 := by omega
      simp [testBit_of_lt hlt hhigh, hzero, hcount]
    · simp [hlow, hzero]

/-- A read of RFSTS0 leaves the status word, while the number fits. -/
theorem handleInput_rfsts0_of_lt (can : RSCan api) (state : PCodeState O)
    (hlt : can.dataQueue.length < 256) : can.handleInput state Reg.rfsts0.addr =
      .ok ⟨can, state.writeU32 Reg.rfsts0.addr
        (statusWord (state.readU32 Reg.rfsts0.addr) can.dataQueue.length), .ok ()⟩ := by
  have hcount : (UInt8.ofNat can.dataQueue.length).toUInt32 =
      UInt32.ofNat can.dataQueue.length := by
    apply UInt32.toNat.inj
    simp
    omega
  have hpos : UInt8.ofNat can.dataQueue.length > 0 ↔ can.dataQueue.length ≠ 0 := by
    rw [gt_iff_lt, UInt8.lt_iff_toNat_lt, UInt8.toNat_ofNat', Nat.mod_eq_of_lt hlt]
    exact Nat.pos_iff_ne_zero
  rw [handleInput_rfsts0, inputRfsts0, tryIntoU8, if_pos hlt]
  simp only [getRegVal, statusWord, hcount, hpos, ite_not]

/-- A larger number ends the read. -/
theorem handleInput_rfsts0_of_le (can : RSCan api) (state : PCodeState O)
    (hle : 256 ≤ can.dataQueue.length) : can.handleInput state Reg.rfsts0.addr =
      .error (.expect "Too many messages in the CAN data queue") := by
  rw [handleInput_rfsts0, inputRfsts0, tryIntoU8, if_neg (Nat.not_lt.mpr hle)]

theorem step_rfsts0 {s : System api O} (hlt : s.can.dataQueue.length < 256) :
    s.step (.input Reg.rfsts0.addr) = .ok ⟨s.can, s.state.writeU32 Reg.rfsts0.addr
      (statusWord (s.state.readU32 Reg.rfsts0.addr) s.can.dataQueue.length)⟩ := by
  rw [System.step, handleInput_rfsts0_of_lt _ _ hlt]
  rfl

theorem step_rfsts0_of_le {s : System api O} (hle : 256 ≤ s.can.dataQueue.length) :
    s.step (.input Reg.rfsts0.addr) =
      .error (.expect "Too many messages in the CAN data queue") := by
  rw [System.step, handleInput_rfsts0_of_le _ _ hle]
  rfl

end FifoStatusLemmas

/-- A read of RFSTS0 returns and shows `unread` messages, with a count of at most 255. -/
def ReadsStatus (s : System api O) (unread : Nat) : Prop :=
  ∃ t, s.step (.input Reg.rfsts0.addr) = .ok t ∧
    StatusShows unread (min unread 255) (s.state.readU32 Reg.rfsts0.addr)
      (t.state.readU32 Reg.rfsts0.addr)

/-- After any run from `new_queued`, over any memory, the status is right exactly while at most
255 messages are unread. With more of them the read ends in the panic that names the reason. -/
theorem readsStatus_of_run {m : PCodeState O} {s : System api O} {es : List (Event O)}
    (h : System.run ⟨newQueued api, m⟩ es = .ok s) :
    (ReadsStatus s (unread es) ↔ unread es ≤ 255) ∧
      (255 < unread es → s.step (.input Reg.rfsts0.addr) =
        .error (.expect "Too many messages in the CAN data queue")) := by
  have hlen : s.can.dataQueue.length = unread es := (run_queue rfl h).2
  have hpanic : 255 < unread es → s.step (.input Reg.rfsts0.addr) =
      .error (.expect "Too many messages in the CAN data queue") :=
    fun hlt => step_rfsts0_of_le (by rwa [hlen])
  refine ⟨⟨?_, ?_⟩, hpanic⟩
  · rintro ⟨t, hok, -⟩
    by_contra hlt
    cases (hpanic (Nat.not_le.mp hlt)).symm.trans hok
  · intro hle
    have hlt : unread es < 256 := Nat.lt_succ_of_le hle
    refine ⟨_, step_rfsts0 (by rwa [hlen]), ?_⟩
    rw [PCodeState.readU32_writeU32, hlen, Nat.min_eq_left hle]
    exact statusShows_statusWord _ hlt

/-- The call that leads to `oneQueued`. -/
def oneCall : List (Event .le) :=
  [.enqueue 0x123 0x0807060504030201]

theorem readsStatus_of_one :
    (ReadsStatus oneQueued (unread oneCall) ↔ unread oneCall ≤ 255) ∧
      (255 < unread oneCall → oneQueued.step (.input Reg.rfsts0.addr) =
        .error (.expect "Too many messages in the CAN data queue")) :=
  readsStatus_of_run (m := blank .le) rfl

/-- The event is a call of `enqueue_can_msg` or of `dequeue_can_msg`. -/
def Event.IsCall : Event O → Prop
  | .enqueue _ _ | .dequeue => True
  | _ => False

/-- With 256 messages the read panics. -/
theorem not_readsStatus : ¬ ∀ (es : List (Event .le)) (s : System SocketCan.plain .le),
    (∀ e ∈ es, e.IsCall) → System.run ⟨newQueued SocketCan.plain, blank .le⟩ es = .ok s →
      ReadsStatus s (unread es) := by
  intro hall
  have hid : ∀ message ∈ List.replicate 256 (⟨0, 0⟩ : Message), message.canId ≤ 0x7FF := by
    intro message hmessage
    rw [List.eq_of_mem_replicate hmessage]
    decide
  obtain ⟨s, hrun, hs, -⟩ := represents_of_enqueue SocketCan.lawful_plain
    (s := ⟨newQueued SocketCan.plain, blank .le⟩) represents_newQueued hid
  have hcalls : ∀ e ∈ (List.replicate 256 (⟨0, 0⟩ : Message)).map (Message.enqueue (O := .le)),
      e.IsCall := by
    intro e he
    obtain ⟨message, -, rfl⟩ := List.mem_map.mp he
    exact trivial
  obtain ⟨t, hok, -⟩ := hall _ s hcalls hrun
  have hlen := hs.length_eq
  rw [List.nil_append, List.length_replicate] at hlen
  rw [step_rfsts0_of_le (Nat.le_of_eq hlen.symm)] at hok
  cases hok

end FuguexPeripheral.V850
