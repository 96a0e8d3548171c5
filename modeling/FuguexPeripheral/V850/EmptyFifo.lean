import FuguexPeripheral.V850.FifoStatus

/-!
# The receive FIFO when it is empty

RFSTS0 can be read at any time. The other registers of the FIFO take the message at its
head without looking whether there is one.

Results:
1. `step_isOk_iff`: which accesses return.
2. `stocked_of_step`: what every step keeps.
3. `endures_iff`: which runs go on to their end.
-/

namespace FuguexPeripheral.V850

open ByteStore Fallible RSCan

variable {api : SocketCan} {O : Order}

/-! ## Runs -/

/-- The registers of the receive FIFO. -/
def isFifo (address : Address) : Prop :=
  address = Reg.rfsts0.addr ∨ address = Reg.rfptr0.addr ∨ address = Reg.rfid0.addr ∨
    isRfdf address ∨ address = Reg.rfpctr0.addr

/-- With `n` messages pending: fill the FIFO up to 255 messages, clear it, or let the
firmware compute and access the registers. -/
def Event.Uses (n : Nat) : Event O → Prop
  | .enqueue canId _ => canId ≤ 0x7FF ∧ n < 255
  | .clear => True
  | .input address => isFifo address
  | .output address _ => isFifo address
  | .execute _ => True
  | _ => False

/-- Every event of the list uses the FIFO, with `n` messages pending at its start. -/
def FifoRun (n : Nat) : List (Event O) → Prop
  | [] => True
  | e :: es => e.Uses n ∧ FifoRun (e.unreadAfter n) es

/-- The access returns. A release leaves an empty queue empty. -/
def System.Endures (s : System api O) : List (Event O) → Prop
  | [] => True
  | e :: es => ∃ t, s.step e = .ok t ∧
      (∀ value, e = .output Reg.rfpctr0.addr value → s.can.dataQueue = [] →
        t.can.dataQueue = []) ∧ t.Endures es

/-- The access takes the message at the head of the queue. -/
def Event.NeedsMessage : Event O → Prop
  | .input address => address = Reg.rfptr0.addr ∨ address = Reg.rfid0.addr ∨ isRfdf address
  | .output address _ => address = Reg.rfpctr0.addr
  | _ => False

/-- Accesses that take a message find one, with `n` messages pending at the start. -/
def Attended (n : Nat) : List (Event O) → Prop
  | [] => True
  | e :: es => (e.NeedsMessage → n ≠ 0) ∧ Attended (e.unreadAfter n) es

/-! ## One step -/

/-- In queued mode, and every frame has eight bytes. -/
structure Stocked (can : RSCan api) : Prop where
  mode : can.selectVcanMode = false
  data : ∀ frame ∈ can.dataQueue, (api.data frame).length = 8

namespace EmptyFifoLemmas

variable {s t : System api O}

theorem isOk_rfptr0 (h : Stocked s.can) :
    (∃ t, s.step (.input Reg.rfptr0.addr) = .ok t) ↔ s.can.dataQueue ≠ [] := by
  rw [System.step, handleInput_rfptr0, map_isOk_iff]
  cases hq : s.can.dataQueue with
  | nil => simp [inputRfptr0_of_empty _ hq]
  | cons frame rest =>
    have hhead : s.can.dataQueue.head? = some frame := by simp [hq]
    have hlen := h.data frame (by simp [hq])
    simp [inputRfptr0_ok _ hhead hlen]

theorem isOk_rfid0 (h : Stocked s.can) :
    (∃ t, s.step (.input Reg.rfid0.addr) = .ok t) ↔ s.can.dataQueue ≠ [] := by
  rw [System.step, handleInput_rfid0, map_isOk_iff]
  cases hq : s.can.dataQueue with
  | nil => simp [inputRfid0, currentFrame_of_empty h.mode hq, bind, Except.bind]
  | cons frame rest =>
    have hhead : s.can.dataQueue.head? = some frame := by simp [hq]
    simp [inputRfid0_ok s.state (currentFrame_of_queued h.mode hhead)]

theorem isOk_rfdf (h : Stocked s.can) {address : Address} (hrfdf : isRfdf address) :
    (∃ t, s.step (.input address) = .ok t) ↔ s.can.dataQueue ≠ [] := by
  rw [System.step, handleInput_rfdf _ _ hrfdf, map_isOk_iff]
  cases hq : s.can.dataQueue with
  | nil => simp [inputRfdf, currentFrame_of_empty h.mode hq, bind, Except.bind]
  | cons frame rest =>
    have hhead : s.can.dataQueue.head? = some frame := by simp [hq]
    have hread := readU64LE_of_length (h.data frame (by simp [hq]))
    simp [inputRfdf_ok s.state (currentFrame_of_queued h.mode hhead) hread]

theorem isOk_rfpctr0 (value : List UInt8) :
    (∃ t, s.step (.output Reg.rfpctr0.addr value) = .ok t) ↔ s.can.dataQueue ≠ [] := by
  rw [System.step, handleOutput_rfpctr0, map_isOk_iff]
  cases hq : s.can.dataQueue with
  | nil => simp [outputRfpctr0, dequeueCanMsg, hq]
  | cons frame rest => simp [outputRfpctr0_of_cons _ hq]

theorem not_needsMessage {r : Reg} (h : r ≠ .rfptr0 ∧ r ≠ .rfid0 ∧ ¬ isRfdf r.addr) :
    ¬ (Event.input r.addr : Event O).NeedsMessage := by
  rintro (hcontra | hcontra | hcontra)
  · exact h.1 (Reg.addr_inj.mp hcontra)
  · exact h.2.1 (Reg.addr_inj.mp hcontra)
  · exact h.2.2 hcontra

/-- A read of RFPCTR0 is not looked at. -/
theorem isOk_input_rfpctr0 : ∃ t, s.step (.input Reg.rfpctr0.addr) = .ok t := by
  have h : ¬ isRfdf Reg.rfpctr0.addr := by decide
  simp [System.step, handleInput, Reg.addr_inj, h, Except.map]

/-- Writes to the other registers of the FIFO are not looked at. -/
theorem isOk_output {address : Address} (h : isFifo address) (hne : address ≠ Reg.rfpctr0.addr)
    (value : List UInt8) : ∃ t, s.step (.output address value) = .ok t := by
  have hquiet : address ≠ Reg.tmsts0.addr ∧ ¬ isTmdf address ∧ address ≠ Reg.tmc0.addr := by
    rcases h with rfl | rfl | rfl | hrfdf | hrfpctr0
    · decide
    · decide
    · decide
    · have hbelow : ¬ isTmdf address := fun htmdf =>
        absurd (Nat.lt_of_le_of_lt htmdf.1 hrfdf.2) (by decide)
      refine ⟨?_, hbelow, ?_⟩
      · rintro rfl
        exact absurd hrfdf (by decide)
      · rintro rfl
        exact absurd hrfdf (by decide)
    · exact absurd hrfpctr0 hne
  simp [System.step, handleOutput, hquiet, hne, Except.map]

theorem isOk_enqueue (hapi : api.Lawful) (h : Stocked s.can) {canId : UInt32} (data : UInt64)
    (hid : canId ≤ 0x7FF) : ∃ t, s.step (.enqueue canId data) = .ok t := by
  obtain ⟨frame, hnew, -, -⟩ := hapi.exists_message O hid data
  exact ⟨_, congrArg (Except.map _) (enqueueCanMsg_of_newFrame h.mode hnew)⟩

end EmptyFifoLemmas

open EmptyFifoLemmas FifoStatusLemmas

/-- An access returns exactly if it takes no message or finds one. -/
theorem step_isOk_iff (hapi : api.Lawful) {s : System api O} {e : Event O} (h : Stocked s.can)
    (he : e.Uses s.can.dataQueue.length) (hlen : s.can.dataQueue.length ≤ 255) :
    (∃ t, s.step e = .ok t) ↔ (e.NeedsMessage → s.can.dataQueue.length ≠ 0) := by
  rw [ne_eq, List.length_eq_zero_iff]
  cases e with
  | enqueue canId data =>
    exact ⟨fun _ hneeds => hneeds.elim, fun _ => isOk_enqueue hapi h data he.1⟩
  | dequeue | init => exact he.elim
  | clear | execute => exact ⟨fun _ hneeds => hneeds.elim, fun _ => ⟨_, rfl⟩⟩
  | input address =>
    rcases he with rfl | rfl | rfl | hrfdf | rfl
    · exact ⟨fun _ hneeds => absurd hneeds (not_needsMessage (by decide)),
        fun _ => ⟨_, step_rfsts0 (Nat.lt_succ_of_le hlen)⟩⟩
    · exact (isOk_rfptr0 h).trans ⟨fun hne _ => hne, fun hne => hne (.inl rfl)⟩
    · exact (isOk_rfid0 h).trans ⟨fun hne _ => hne, fun hne => hne (.inr (.inl rfl))⟩
    · exact (isOk_rfdf h hrfdf).trans ⟨fun hne _ => hne, fun hne => hne (.inr (.inr hrfdf))⟩
    · exact ⟨fun _ hneeds => absurd hneeds (not_needsMessage (by decide)),
        fun _ => isOk_input_rfpctr0⟩
  | output address value =>
    by_cases hrfpctr0 : address = Reg.rfpctr0.addr
    · subst hrfpctr0
      exact (isOk_rfpctr0 value).trans ⟨fun hne _ => hne, fun hne => hne rfl⟩
    · exact ⟨fun _ hneeds => absurd hneeds hrfpctr0, fun _ => isOk_output he hrfpctr0 value⟩

theorem stocked_of_step (hapi : api.Lawful) {s t : System api O} {e : Event O} (h : Stocked s.can)
    (hstep : s.step e = .ok t) : Stocked t.can := by
  refine ⟨(step_queue h.mode hstep).1, ?_⟩
  cases e with
  | enqueue canId data =>
    obtain ⟨r, hok, rfl⟩ := exists_of_map_eq_ok hstep
    obtain ⟨frame, hnew, -, -, hqueue⟩ := enqueueCanMsg_cases h.mode hok
    intro x hx
    rw [hqueue] at hx
    rcases List.mem_append.mp hx with hx | hx
    · exact h.data x hx
    · rw [List.mem_singleton.mp hx, hapi.data_newFrame _ _ _ hnew, length_encode]
  | dequeue =>
    cases hstep
    exact fun x hx => h.data x (List.mem_of_mem_tail hx)
  | clear =>
    cases hstep
    exact fun x hx => absurd hx List.not_mem_nil
  | init | execute =>
    cases hstep
    exact h.data
  | input address =>
    obtain ⟨access, hok, rfl⟩ := exists_of_map_eq_ok hstep
    rw [can_of_handleInput h.mode hok]
    exact h.data
  | output address value =>
    obtain ⟨access, hok, rfl⟩ := exists_of_map_eq_ok hstep
    rw [can_of_handleOutput h.mode hok]
    split_ifs
    · exact fun x hx => h.data x (List.mem_of_mem_tail hx)
    · exact h.data

/-! ## Runs to their end -/

namespace EmptyFifoLemmas

theorem unreadAfter_le {n : Nat} {e : Event O} (he : e.Uses n) (hn : n ≤ 255) :
    e.unreadAfter n ≤ 255 := by
  cases e with
  | enqueue canId data => exact he.2
  | dequeue | init => exact he.elim
  | clear => exact Nat.zero_le _
  | input | execute => exact hn
  | output address value =>
    rw [Event.unreadAfter]
    split_ifs
    · exact Nat.le_trans (Nat.sub_le n 1) hn
    · exact hn

theorem endures_iff_of_stocked (hapi : api.Lawful) {s : System api O} {es : List (Event O)}
    (h : Stocked s.can) (hlen : s.can.dataQueue.length ≤ 255)
    (hes : FifoRun s.can.dataQueue.length es) :
    s.Endures es ↔ Attended s.can.dataQueue.length es := by
  induction es generalizing s with
  | nil => exact Iff.rfl
  | cons e es ih =>
    obtain ⟨he, hrest⟩ := hes
    have hnext : ∀ t, s.step e = .ok t →
        (t.Endures es ↔ Attended (e.unreadAfter s.can.dataQueue.length) es) := by
      intro t hstep
      have hqueue := (step_queue h.mode hstep).2
      rw [← hqueue]
      refine ih (stocked_of_step hapi h hstep) ?_ ?_
      · rw [hqueue]
        exact unreadAfter_le he hlen
      · rwa [hqueue]
    constructor
    · rintro ⟨t, hstep, -, hendures⟩
      exact ⟨(step_isOk_iff hapi h he hlen).mp ⟨t, hstep⟩, (hnext t hstep).mp hendures⟩
    · rintro ⟨hneeds, hattended⟩
      obtain ⟨t, hstep⟩ := (step_isOk_iff hapi h he hlen).mpr hneeds
      refine ⟨t, hstep, ?_, (hnext t hstep).mpr hattended⟩
      rintro value rfl hempty
      exact absurd (List.length_eq_zero_iff.mpr hempty) (hneeds rfl)

end EmptyFifoLemmas

/-- A run goes on to its end exactly if every access that takes a message finds one. -/
theorem endures_iff (hapi : api.Lawful) (m : PCodeState O) {es : List (Event O)}
    (hes : FifoRun 0 es) :
    System.Endures (⟨newQueued api, m⟩ : System api O) es ↔ Attended 0 es := by
  have hstocked : Stocked (newQueued api) :=
    ⟨rfl, fun frame hframe => absurd hframe List.not_mem_nil⟩
  exact endures_iff_of_stocked hapi (s := ⟨newQueued api, m⟩) hstocked (Nat.zero_le _) hes

/-- A message comes in, and the firmware reads its identifier and releases it. -/
def attendedRun : List (Event .be) :=
  [.enqueue 0x123 0x0807060504030201, .input Reg.rfid0.addr, .output Reg.rfpctr0.addr [0xff]]

theorem endures_attendedRun :
    System.Endures ⟨newQueued SocketCan.plain, blank .be⟩ attendedRun ↔
      Attended 0 attendedRun :=
  endures_iff SocketCan.lawful_plain (blank .be)
    ⟨⟨by decide, by decide⟩, .inr (.inr (.inl rfl)), .inr (.inr (.inr (.inr rfl))), trivial⟩

/-- A release of an empty queue panics. -/
theorem not_endures_release : ¬ ∀ es : List (Event .le), FifoRun 0 es →
    System.Endures ⟨newQueued SocketCan.plain, blank .le⟩ es := by
  intro hall
  have huses : FifoRun (O := .le) 0 [.output Reg.rfpctr0.addr [0xff]] :=
    ⟨.inr (.inr (.inr (.inr rfl))), trivial⟩
  obtain ⟨t, hstep, -⟩ := hall _ huses
  exact (isOk_rfpctr0 [0xff]).mp ⟨t, hstep⟩ rfl

end FuguexPeripheral.V850
