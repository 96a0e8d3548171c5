import FuguexPeripheral.V850.FifoStatus

/-!
# The receive FIFO in both byte orders

The same messages are enqueued on a little-endian and on a big-endian state, and the firmware
reads the same register. `enqueue_can_msg` writes the data in the order of the state, a read
of the data registers takes these bytes as a little-endian number.

Results:
1. `shownData_le`, `shownData_be`: the words of the data registers in each order.
2. `readU32_of_read`: every word after a read that returns, in either order.
3. `sameRead_iff`: when the firmware sees the same in both orders.
-/

namespace FuguexPeripheral.V850

open ByteStore RSCan

variable {api : SocketCan} {O : Order}

/-! ## The data registers -/

/-- A word with its bytes the other way round. -/
def byteSwap (w : UInt32) : UInt32 :=
  UInt32.ofNat (decode .be (encode .le 4 w.toNat))

/-- The words of RFDF00 and RFDF10 after a read of the data of a message: its bytes in the
order of the state, taken as a little-endian number. -/
def shownData (O : Order) (data : UInt64) : UInt32 × UInt32 :=
  PCodeState.halves O (UInt64.ofNat (decode .le (encode O 8 data.toNat)))

namespace ByteOrderLemmas

theorem shownData_le (data : UInt64) : shownData .le data = PCodeState.halves .le data := by
  have hlt := data.toNat_lt
  rw [shownData, decode_encode, Nat.mod_eq_of_lt hlt, UInt64.ofNat_toNat]

theorem decode_reverse (bs : List UInt8) : decode .le bs.reverse = decode .be bs :=
  rfl

/-- In big-endian order both words come out with their bytes the other way round. -/
theorem shownData_be (data : UInt64) : shownData .be data =
    (byteSwap (PCodeState.halves .le data).1, byteSwap (PCodeState.halves .le data).2) := by
  set low := (PCodeState.halves .le data).1
  set high := (PCodeState.halves .le data).2
  have hbytes : encode .be 8 data.toNat =
      (encode .le 4 high.toNat).reverse ++ (encode .le 4 low.toNat).reverse :=
    PCodeState.encode_eight .be data
  have hlow := decode_lt .be (encode .le 4 low.toNat)
  have hhigh := decode_lt .be (encode .le 4 high.toNat)
  rw [length_encode] at hlow hhigh
  rw [shownData, hbytes, decode_le_append, decode_reverse, decode_reverse, List.length_reverse,
    length_encode]
  refine Prod.ext (UInt32.toNat.inj ?_) (UInt32.toNat.inj ?_)
  · simp [PCodeState.halves, byteSwap, Nat.shiftRight_eq_div_pow]
    omega
  · simp [PCodeState.halves, byteSwap]

end ByteOrderLemmas

open ByteOrderLemmas FifoStatusLemmas

/-! ## A read of the FIFO -/

/-- The registers that are compared. -/
def watched : List Reg :=
  [.rfid0, .rfptr0, .rfsts0, .rfdf00, .rfdf10]

/-- A read of RFID0, RFPTR0, RFSTS0 or of the data registers. -/
def isFifoRead (input : Address) : Prop :=
  input = Reg.rfid0.addr ∨ input = Reg.rfptr0.addr ∨ input = Reg.rfsts0.addr ∨ isRfdf input

/-- A read of `input` brings the register up to date. -/
def Refreshes (input : Address) (r : Reg) : Prop :=
  r.addr = input ∨ isRfdf input ∧ isRfdf r.addr

/-- The read does not panic: RFSTS0 counts up to 255 messages, the others take one. -/
def Returns (messages : List Message) (input : Address) : Prop :=
  if input = Reg.rfsts0.addr then messages.length < 256 else messages ≠ []

/-- The message at the head of the queue. -/
def headMessage (messages : List Message) : Message :=
  messages.headD ⟨0, 0⟩

/-- What a read of `input` that returns leaves in a register, in place of `old`. -/
def shownWord (O : Order) (messages : List Message) (input : Address) (r : Reg) (old : UInt32) :
    UInt32 :=
  if isRfdf input then
    if r = .rfdf00 then (shownData O (headMessage messages).data).1
    else if r = .rfdf10 then (shownData O (headMessage messages).data).2
    else old
  else if r.addr ≠ input then old
  else if r = .rfsts0 then statusWord old messages.length
  else if r = .rfid0 then (headMessage messages).canId
  else (8 : UInt32) <<< 28

namespace ByteOrderLemmas

variable {can : RSCan api} {messages : List Message}

/-- The registers do not overlap. -/
theorem disjoint_of_ne {r q : Reg} (hr : r ∈ watched) (hq : q ∈ watched) (hne : r ≠ q) :
    r.addr + 4 ≤ q.addr ∨ q.addr + 4 ≤ r.addr := by
  have hall : ∀ r ∈ watched, ∀ q ∈ watched, r ≠ q →
      r.addr + 4 ≤ q.addr ∨ q.addr + 4 ≤ r.addr := by decide
  exact hall r hr q hq hne

/-- A word is written in one register. -/
theorem readU32_of_word (state : PCodeState O) {r q : Reg} (hr : r ∈ watched) (hq : q ∈ watched)
    (w : UInt32) : (state.writeU32 q.addr w).readU32 r.addr =
      if r = q then w else state.readU32 r.addr := by
  split_ifs with h
  · rw [h, PCodeState.readU32_writeU32]
  · exact PCodeState.readU32_writeU32_of_disjoint _ _ (disjoint_of_ne hr hq h)

/-- Eight bytes are written in the two data registers. -/
theorem readU32_of_data (state : PCodeState O) {r : Reg} (hr : r ∈ watched) (v : UInt64) :
    (state.write Reg.rfdf00.addr 8 v.toNat).readU32 r.addr =
      if r = .rfdf00 then (PCodeState.halves O v).1
      else if r = .rfdf10 then (PCodeState.halves O v).2
      else state.readU32 r.addr := by
  obtain ⟨hlow, hhigh⟩ := PCodeState.readU32_write_halves state Reg.rfdf00.addr v
  split_ifs with hfst hsnd
  · rw [hfst, hlow]
  · rw [hsnd, ← hhigh]
    rfl
  · have hall : ∀ r ∈ watched, r ≠ .rfdf00 → r ≠ .rfdf10 →
        r.addr + 4 ≤ Reg.rfdf00.addr ∨ Reg.rfdf00.addr + 8 ≤ r.addr := by decide
    exact PCodeState.readU32_write_of_disjoint _ _ (hall r hr hfst hsnd)

theorem shownWord_of_word {q : Reg} (hq : ¬ isRfdf q.addr) (r : Reg) (old : UInt32) :
    shownWord O messages q.addr r old =
      if r = q then
        if q = .rfsts0 then statusWord old messages.length
        else if q = .rfid0 then (headMessage messages).canId
        else (8 : UInt32) <<< 28
      else old := by
  rw [shownWord, if_neg hq]
  by_cases h : r = q
  · simp [h]
  · simp [h, Reg.addr_inj]

theorem shownWord_rfsts0 (old : UInt32) :
    shownWord O messages Reg.rfsts0.addr .rfsts0 old = statusWord old messages.length :=
  shownWord_of_word (by decide) .rfsts0 old

/-- The registers of the message at the head. -/
theorem readU32_of_head (h : Represents O can messages) (state : PCodeState O) {input : Address}
    (hinput : input = Reg.rfid0.addr ∨ input = Reg.rfptr0.addr ∨ isRfdf input)
    (hne : messages ≠ []) :
    ∃ access, can.handleInput state input = .ok access ∧ ∀ r ∈ watched,
      access.state.readU32 r.addr = shownWord O messages input r (state.readU32 r.addr) := by
  have hqueue : can.dataQueue ≠ [] := by
    rw [← List.length_pos_iff, h.length_eq]
    exact List.length_pos_iff.mpr hne
  obtain ⟨message, rest, frame, frames, rfl, hcons, hid, hdata⟩ :=
    ReceiveQueueLemmas.exists_head h hqueue
  have hhead : can.dataQueue.head? = some frame := by simp [hcons]
  have hlen : (api.data frame).length = 8 := by simp [hdata]
  rcases hinput with rfl | rfl | hrfdf
  · have hword := rfidWord_eq_self (h.canId message List.mem_cons_self)
    refine ⟨_, handleInput_rfid0_of_head state h.mode hhead, fun r hr => ?_⟩
    rw [readU32_of_word state hr (by decide), shownWord_of_word (by decide), hid, hword]
    rfl
  · refine ⟨_, (handleInput_rfptr0 can state).trans (inputRfptr0_ok state hhead hlen),
      fun r hr => ?_⟩
    rw [readU32_of_word state hr (by decide), shownWord_of_word (by decide)]
    rfl
  · refine ⟨_, (handleInput_rfdf can state hrfdf).trans
      (inputRfdf_ok state (currentFrame_of_queued h.mode hhead) (readU64LE_of_length hlen)),
      fun r hr => ?_⟩
    rw [readU32_of_data state hr, shownWord, if_pos hrfdf, hdata]
    rfl

/-- A read that returns leaves the shown words. -/
theorem readU32_of_read (h : Represents O can messages) (state : PCodeState O) {input : Address}
    (hinput : isFifoRead input) (hreturns : Returns messages input) :
    ∃ access, can.handleInput state input = .ok access ∧ ∀ r ∈ watched,
      access.state.readU32 r.addr = shownWord O messages input r (state.readU32 r.addr) := by
  by_cases hrfsts0 : input = Reg.rfsts0.addr
  · subst hrfsts0
    have hlt : can.dataQueue.length < 256 := by
      rw [h.length_eq]
      simpa [Returns] using hreturns
    refine ⟨_, handleInput_rfsts0_of_lt can state hlt, fun r hr => ?_⟩
    rw [readU32_of_word state hr (by decide), shownWord_of_word (by decide), h.length_eq]
    by_cases heq : r = .rfsts0
    · simp [heq]
    · simp [heq]
  · rw [Returns, if_neg hrfsts0] at hreturns
    refine readU32_of_head h state ?_ hreturns
    rcases hinput with hinput | hinput | hinput | hinput
    · exact .inl hinput
    · exact .inr (.inl hinput)
    · exact absurd hinput hrfsts0
    · exact .inr (.inr hinput)

/-- A read that does not return panics in the same way in both orders. -/
theorem error_of_read (h : Represents O can messages) (state : PCodeState O) {input : Address}
    (hinput : isFifoRead input) (hreturns : ¬ Returns messages input) :
    can.handleInput state input = .error (.expect
      (if input = Reg.rfsts0.addr then "Too many messages in the CAN data queue"
      else if input = Reg.rfptr0.addr then "CAN msg queue is empty" else "Queue is empty")) := by
  by_cases hrfsts0 : input = Reg.rfsts0.addr
  · subst hrfsts0
    have hle : 256 ≤ can.dataQueue.length := by
      rw [h.length_eq]
      simpa [Returns] using hreturns
    rw [if_pos rfl, handleInput_rfsts0_of_le can state hle]
  · rw [Returns, if_neg hrfsts0, ne_eq, not_not] at hreturns
    have hempty : can.dataQueue = [] := by
      rw [← List.length_eq_zero_iff, h.length_eq, hreturns, List.length_nil]
    have hframe := currentFrame_of_empty h.mode hempty
    rw [if_neg hrfsts0]
    rcases hinput with rfl | rfl | hinput | hrfdf
    · simp [handleInput_rfid0, inputRfid0, hframe, bind, Except.bind, Reg.addr_inj]
    · simp [handleInput_rfptr0, inputRfptr0_of_empty _ hempty]
    · exact absurd hinput hrfsts0
    · have hne : input ≠ Reg.rfptr0.addr := by
        rintro rfl
        exact absurd hrfdf (by decide)
      simp [handleInput_rfdf _ _ hrfdf, inputRfdf, hframe, bind, Except.bind, hne]

end ByteOrderLemmas

/-! ## The same in both orders -/

/-- The firmware sees the same: the read panics with the same text in both orders, or it
returns in both and the words of the FIFO are the same, where a read of the data shows the
lower half of it in RFDF00 and the higher half in RFDF10. -/
def SameRead (messages : List Message) (can can' : RSCan api) (state : PCodeState .le)
    (state' : PCodeState .be) (input : Address) : Prop :=
  (∃ panic, can.handleInput state input = .error panic ∧
    can'.handleInput state' input = .error panic) ∨
  ∃ access access', can.handleInput state input = .ok access ∧
    can'.handleInput state' input = .ok access' ∧
    (∀ r ∈ watched, access.state.readU32 r.addr = access'.state.readU32 r.addr) ∧
    (isRfdf input →
      access.state.readU32 Reg.rfdf00.addr = (headMessage messages).data.toUInt32 ∧
      access.state.readU32 Reg.rfdf10.addr = ((headMessage messages).data >>> 32).toUInt32)

/-- What makes a read of `input` leave the same words in both orders. -/
structure Agrees (messages : List Message) (state : PCodeState .le) (state' : PCodeState .be)
    (input : Address) : Prop where
  /-- The words that the read leaves alone are the same before. -/
  kept : ∀ r ∈ watched, ¬ Refreshes input r → state.readU32 r.addr = state'.readU32 r.addr
  /-- With messages RFSTS0 keeps some of its bits. -/
  status : input = Reg.rfsts0.addr → messages ≠ [] →
    state.readU32 Reg.rfsts0.addr &&& 0xFFFF00FE = state'.readU32 Reg.rfsts0.addr &&& 0xFFFF00FE
  /-- Both halves of the data read the same from either end. -/
  data : isRfdf input →
    byteSwap (headMessage messages).data.toUInt32 = (headMessage messages).data.toUInt32 ∧
    byteSwap ((headMessage messages).data >>> 32).toUInt32 =
      ((headMessage messages).data >>> 32).toUInt32

namespace ByteOrderLemmas

/-- The status words are the same when the kept bits are. -/
theorem statusWord_eq_iff {x y : UInt32} {n : Nat} (hlt : n < 256) :
    statusWord x n = statusWord y n ↔ (n ≠ 0 → x &&& 0xFFFF00FE = y &&& 0xFFFF00FE) := by
  constructor
  · intro h hne
    refine Masks.and_eq_and_iff.mpr fun i hi => ?_
    have hi32 : i < 32 := by
      by_contra hge
      rw [Masks.bit_of_le _ (Nat.not_lt.mp hge)] at hi
      cases hi
    rw [bit_mask hi32, decide_eq_true_iff] at hi
    rw [← (statusShows_statusWord x hlt).kept hne i hi32 hi.1 hi.2, h,
      (statusShows_statusWord y hlt).kept hne i hi32 hi.1 hi.2]
  · intro h
    unfold statusWord
    split_ifs with hzero
    · rfl
    · rw [h hzero]

variable {messages : List Message} {state : PCodeState .le} {state' : PCodeState .be}

theorem shownWord_of_not_refreshes {input : Address} {r : Reg} (h : ¬ Refreshes input r)
    (old : UInt32) : shownWord O messages input r old = old := by
  rw [Refreshes, not_or, not_and] at h
  unfold shownWord
  by_cases hrfdf : isRfdf input
  · have hr := h.2 hrfdf
    rw [if_pos hrfdf, if_neg, if_neg]
    · rintro rfl
      exact hr (by decide)
    · rintro rfl
      exact hr (by decide)
  · rw [if_neg hrfdf, if_pos h.1]

/-- A read of a word refreshes that register only. -/
theorem eq_of_refreshes_word {q r : Reg} (hq : ¬ isRfdf q.addr) (h : Refreshes q.addr r) :
    r = q := by
  rcases h with h | h
  · exact Reg.addr_inj.mp h
  · exact absurd h.1 hq

/-- A read of the data refreshes both data registers. -/
theorem eq_of_refreshes_data {input : Address} {r : Reg} (hr : r ∈ watched)
    (hrfdf : isRfdf input) (h : Refreshes input r) : r = .rfdf00 ∨ r = .rfdf10 := by
  have hdata : isRfdf r.addr := by
    rcases h with h | h
    · rwa [h]
    · exact h.2
  have hall : ∀ r ∈ watched, isRfdf r.addr → r = .rfdf00 ∨ r = .rfdf10 := by decide
  exact hall r hr hdata

theorem shownWord_data {input : Address} (hrfdf : isRfdf input) (old : UInt32) :
    shownWord .le messages input .rfdf00 old = (headMessage messages).data.toUInt32 ∧
      shownWord .le messages input .rfdf10 old =
        ((headMessage messages).data >>> 32).toUInt32 ∧
      shownWord .be messages input .rfdf00 old =
        byteSwap (headMessage messages).data.toUInt32 ∧
      shownWord .be messages input .rfdf10 old =
        byteSwap ((headMessage messages).data >>> 32).toUInt32 := by
  simp [shownWord, hrfdf, shownData_le, shownData_be, PCodeState.halves]

theorem agrees_of_shownWord {input : Address} (hreturns : Returns messages input)
    (h : ∀ r ∈ watched, shownWord .le messages input r (state.readU32 r.addr) =
      shownWord .be messages input r (state'.readU32 r.addr)) :
    Agrees messages state state' input where
  kept r hr hnot := by
    have hword := h r hr
    rwa [shownWord_of_not_refreshes hnot, shownWord_of_not_refreshes hnot] at hword
  status := by
    rintro rfl hne
    have hlt : messages.length < 256 := by simpa [Returns] using hreturns
    have hword := h .rfsts0 (by decide)
    rw [shownWord_rfsts0, shownWord_rfsts0, statusWord_eq_iff hlt] at hword
    exact hword (List.length_eq_zero_iff.not.mpr hne)
  data hrfdf := by
    have hlow := h .rfdf00 (by decide)
    have hhigh := h .rfdf10 (by decide)
    rw [(shownWord_data hrfdf _).1, (shownWord_data hrfdf _).2.2.1] at hlow
    rw [(shownWord_data hrfdf _).2.1, (shownWord_data hrfdf _).2.2.2] at hhigh
    exact ⟨hlow.symm, hhigh.symm⟩

theorem shownWord_of_agrees {input : Address} (hinput : isFifoRead input)
    (hreturns : Returns messages input) (h : Agrees messages state state' input) {r : Reg}
    (hr : r ∈ watched) : shownWord .le messages input r (state.readU32 r.addr) =
      shownWord .be messages input r (state'.readU32 r.addr) := by
  by_cases href : Refreshes input r
  · rcases hinput with rfl | rfl | rfl | hrfdf
    · rw [eq_of_refreshes_word (by decide) href, shownWord_of_word (by decide),
        shownWord_of_word (by decide)]
      rfl
    · rw [eq_of_refreshes_word (by decide) href, shownWord_of_word (by decide),
        shownWord_of_word (by decide)]
      rfl
    · have hlt : messages.length < 256 := by simpa [Returns] using hreturns
      rw [eq_of_refreshes_word (by decide) href, shownWord_rfsts0, shownWord_rfsts0,
        statusWord_eq_iff hlt]
      exact fun hne => h.status rfl (List.length_eq_zero_iff.not.mp hne)
    · obtain ⟨hlow, hhigh⟩ := h.data hrfdf
      rcases eq_of_refreshes_data hr hrfdf href with rfl | rfl
      · rw [(shownWord_data hrfdf _).1, (shownWord_data hrfdf _).2.2.1, hlow]
      · rw [(shownWord_data hrfdf _).2.1, (shownWord_data hrfdf _).2.2.2, hhigh]
  · rw [shownWord_of_not_refreshes href, shownWord_of_not_refreshes href]
    exact h.kept r hr href

theorem sameRead_iff_of_represents {can can' : RSCan api} (h : Represents .le can messages)
    (h' : Represents .be can' messages) {input : Address} (hinput : isFifoRead input) :
    SameRead messages can can' state state' input ↔
      (Returns messages input → Agrees messages state state' input) := by
  by_cases hreturns : Returns messages input
  · obtain ⟨access, hok, hshown⟩ := readU32_of_read h state hinput hreturns
    obtain ⟨access', hok', hshown'⟩ := readU32_of_read h' state' hinput hreturns
    constructor
    · rintro (⟨panic, herror, -⟩ | ⟨a, a', ha, ha', hsame, -⟩) -
      · cases hok.symm.trans herror
      · cases hok.symm.trans ha
        cases hok'.symm.trans ha'
        refine agrees_of_shownWord hreturns fun r hr => ?_
        rw [← hshown r hr, ← hshown' r hr, hsame r hr]
    · intro hagrees
      refine .inr ⟨access, access', hok, hok', fun r hr => ?_, fun hrfdf => ?_⟩
      · rw [hshown r hr, hshown' r hr]
        exact shownWord_of_agrees hinput hreturns (hagrees hreturns) hr
      · rw [hshown .rfdf00 (by decide), hshown .rfdf10 (by decide)]
        exact ⟨(shownWord_data hrfdf _).1, (shownWord_data hrfdf _).2.1⟩
  · exact ⟨fun _ hcontra => absurd hcontra hreturns, fun _ => .inl ⟨_,
      error_of_read h state hinput hreturns, error_of_read h' state' hinput hreturns⟩⟩

end ByteOrderLemmas

/-- The same messages are enqueued in both orders, and the firmware reads the same register
over any two states. It sees the same exactly if the words that the read leaves alone were
the same and, for the data registers, the bytes of both halves read the same from either
end. -/
theorem sameRead_iff (hapi : api.Lawful) {messages : List Message}
    (hid : ∀ message ∈ messages, message.canId ≤ 0x7FF) (m : PCodeState .le)
    (m' : PCodeState .be) :
    ∃ can can' : RSCan api,
      System.run ⟨newQueued api, m⟩ (messages.map Message.enqueue) = .ok ⟨can, m⟩ ∧
      System.run ⟨newQueued api, m'⟩ (messages.map Message.enqueue) = .ok ⟨can', m'⟩ ∧
      ∀ state state' input, isFifoRead input → (SameRead messages can can' state state' input ↔
        (Returns messages input → Agrees messages state state' input)) := by
  obtain ⟨⟨can, n⟩, hrun, h, hn⟩ := represents_of_enqueue hapi
    (s := (⟨newQueued api, m⟩ : System api .le)) represents_newQueued hid
  obtain ⟨⟨can', n'⟩, hrun', h', hn'⟩ := represents_of_enqueue hapi
    (s := (⟨newQueued api, m'⟩ : System api .be)) represents_newQueued hid
  cases hn
  cases hn'
  exact ⟨can, can', hrun, hrun', fun _ _ _ hinput => sameRead_iff_of_represents h h' hinput⟩

/-- The message of `oneQueued`. -/
def oneMessage : List Message :=
  [⟨0x123, 0x0807060504030201⟩]

theorem sameRead_iff_oneMessage :
    ∃ can can' : RSCan SocketCan.plain,
      System.run ⟨newQueued SocketCan.plain, blank .le⟩ (oneMessage.map Message.enqueue) =
        .ok ⟨can, blank .le⟩ ∧
      System.run ⟨newQueued SocketCan.plain, blank .be⟩ (oneMessage.map Message.enqueue) =
        .ok ⟨can', blank .be⟩ ∧
      ∀ state state' input, isFifoRead input → (SameRead oneMessage can can' state state' input ↔
        (Returns oneMessage input → Agrees oneMessage state state' input)) :=
  sameRead_iff SocketCan.lawful_plain
    (fun message hmessage => by rw [List.mem_singleton.mp hmessage]; decide) (blank .le)
    (blank .be)

/-- Over empty memories the data of that message is not shown the same. -/
theorem not_sameRead_oneMessage : ¬ ∀ can can' : RSCan SocketCan.plain,
    System.run ⟨newQueued SocketCan.plain, blank .le⟩ (oneMessage.map Message.enqueue) =
      .ok ⟨can, blank .le⟩ →
    System.run ⟨newQueued SocketCan.plain, blank .be⟩ (oneMessage.map Message.enqueue) =
      .ok ⟨can', blank .be⟩ →
    SameRead oneMessage can can' (blank .le) (blank .be) Reg.rfdf00.addr := by
  intro hall
  have hid : ∀ message ∈ oneMessage, message.canId ≤ 0x7FF := by
    intro message hmessage
    rw [List.mem_singleton.mp hmessage]
    decide
  obtain ⟨⟨can, n⟩, hrun, h, hn⟩ := represents_of_enqueue SocketCan.lawful_plain
    (s := ⟨newQueued SocketCan.plain, blank .le⟩) represents_newQueued hid
  obtain ⟨⟨can', n'⟩, hrun', h', hn'⟩ := represents_of_enqueue SocketCan.lawful_plain
    (s := ⟨newQueued SocketCan.plain, blank .be⟩) represents_newQueued hid
  cases hn
  cases hn'
  have hsame := hall can can' hrun hrun'
  have hreturns : Returns oneMessage Reg.rfdf00.addr := by
    simp [Returns, oneMessage, Reg.addr_inj]
  have hagrees := (sameRead_iff_of_represents h h' (.inr (.inr (.inr (by decide))))).mp hsame
    hreturns
  exact absurd (hagrees.data (by decide)).1 (by decide)

end FuguexPeripheral.V850
