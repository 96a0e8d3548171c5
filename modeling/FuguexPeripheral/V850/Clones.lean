import FuguexPeripheral.Polling.Memory
import FuguexPeripheral.V850.EmptyFifo

/-!
# Emulators that share an RSCAN peripheral

Behind a polling hook the clones of an emulator share one peripheral. Any of them may read
the message at the head of the queue, and any may release it.

Results:
1. `apply_eq`: a thread acts on the peripheral and on its own memory as one emulator does.
2. `conserved_of_step`: a step moves messages off the front of the queue and puts them at
   its end.
3. `clones_deliver`: across all threads every message is taken once, in order, and a read
   shows the first one that is left.
4. `clones_tear`: two reads of one thread belong to one message when no other thread takes
   one in between.
-/

namespace FuguexPeripheral.V850

open ByteStore Fallible Runs RSCan Interleaving
open Polling (PollingPeripheralHandler MemoryPollingPeripheral Threads Mutex Act Handled)

variable {api : SocketCan} {O : Order} {κ : Type}

/-! ## The peripheral as a handler -/

instance : PollingPeripheralHandler (RSCan api) O Panic where
  init can state := .ok ⟨can, RSCan.init state, .ok ()⟩
  handleInput can state input _ :=
    (can.handleInput state input).map fun r => ⟨r.can, r.state, r.result⟩
  handleOutput can state output value _ :=
    (can.handleOutput state output value).map fun r => ⟨r.can, r.state, r.result⟩

/-- What the user of an emulator does to the peripheral behind the lock. -/
inductive CanOperation
  | enqueue (canId : UInt32) (data : UInt64)
  | dequeue
  | clear
  deriving DecidableEq, Repr

def CanOperation.apply (O : Order) (can : RSCan api) : CanOperation → Except Panic (RSCan api)
  | .enqueue canId data => (can.enqueueCanMsg O canId data).map Prod.snd
  | .dequeue => .ok can.dequeueCanMsg.2
  | .clear => .ok can.clearCanMsgQueue

/-- What happens in a thread, as an event of one emulator. -/
def toEvent : Polling.Event CanOperation O → Event O
  | .read address _ => .input address
  | .write address _ value => .output address value
  | .operate (.enqueue canId data) => .enqueue canId data
  | .operate .dequeue => .dequeue
  | .operate .clear => .clear
  | .execute state => .execute state

/-- A hook on the registers of a peripheral. -/
def hooked (can : RSCan api) : MemoryPollingPeripheral (RSCan api) :=
  ⟨getRegsRange, .free can⟩

/-- What the builder makes of a new peripheral is a hook on its registers, and the registers
of the status have their initial values. -/
theorem build_newQueued (state : PCodeState O) :
    (Polling.MemoryPollingPeripheralBuilder.new (newQueued api) state getRegsRange).map
        (fun r => (r.1.build, r.2)) =
      .ok (hooked (newQueued api), RSCan.init state) :=
  rfl

theorem covers_reg (can : RSCan api) (r : Reg) : (hooked can).covers r.addr = true :=
  MemoryPollingPeripheral.covers_iff.mpr r.addr_mem_range

theorem covers_of_isRfdf {can : RSCan api} {address : Address} (h : isRfdf address) :
    (hooked can).covers address = true := by
  have hlow := Nat.le_trans (by decide : getRegsRange.1 ≤ Reg.rfdf00.addr) h.1
  have hhigh := Nat.le_trans (Nat.le_of_lt h.2) (by decide : Reg.rfdf10.addr + 4 ≤ getRegsRange.2)
  exact MemoryPollingPeripheral.covers_iff.mpr ⟨hlow, hhigh⟩

theorem covers_of_isTmdf {can : RSCan api} {address : Address} (h : isTmdf address) :
    (hooked can).covers address = true := by
  have hlow := Nat.le_trans (by decide : getRegsRange.1 ≤ Reg.tmdf00.addr) h.1
  have hhigh := Nat.le_trans (Nat.le_of_lt h.2) (by decide : Reg.tmdf10.addr + 4 ≤ getRegsRange.2)
  exact MemoryPollingPeripheral.covers_iff.mpr ⟨hlow, hhigh⟩

/-- Outside the range there is nothing to read. -/
theorem handleInput_of_not_covers {can : RSCan api} {address : Address}
    (h : (hooked can).covers address = false) (state : PCodeState O) :
    can.handleInput state address = .ok ⟨can, state, .ok ()⟩ := by
  have hreg : ∀ r : Reg, address ≠ r.addr := by
    rintro r rfl
    simp [covers_reg] at h
  have hrfdf : ¬ isRfdf address := fun hrfdf => by simp [covers_of_isRfdf hrfdf] at h
  simp [handleInput, hreg, hrfdf]

theorem handleOutput_of_not_covers {can : RSCan api} {address : Address}
    (h : (hooked can).covers address = false) (state : PCodeState O) (value : List UInt8) :
    can.handleOutput state address value = .ok ⟨can, state, .ok ()⟩ := by
  have hreg : ∀ r : Reg, address ≠ r.addr := by
    rintro r rfl
    simp [covers_reg] at h
  have htmdf : ¬ isTmdf address := fun htmdf => by simp [covers_of_isTmdf htmdf] at h
  simp [handleOutput, hreg, htmdf]

/-- A thread acts on the peripheral and on its own memory as one emulator does. -/
theorem apply_eq (can : RSCan api) (state : PCodeState O) (e : Polling.Event CanOperation O) :
    (e.apply (CanOperation.apply O) (hooked can) state).toOption.map
        (fun r => (r.hook, r.state)) =
      ((⟨can, state⟩ : System api O).step (toEvent e)).toOption.map
        fun s => (hooked s.can, s.state) := by
  -- both hooks are `serve`, and outside the range the peripheral would do nothing either
  have hserve : ∀ (address : Address) (call : RSCan api → Except Panic (Handled (RSCan api) O))
      (r : Except Panic (Access api O)), call can = r.map (fun r => ⟨r.can, r.state, r.result⟩) →
      ((hooked can).covers address = false → r = .ok ⟨can, state, .ok ()⟩) →
      ((hooked can).serve state address call).toOption.map (fun r => (r.hook, r.state)) =
      (r.map fun r => (⟨r.can, r.state⟩ : System api O)).toOption.map
        fun s => (hooked s.can, s.state) := by
    intro address call r hcall houtside
    cases hcovers : (hooked can).covers address with
    | false =>
      rw [MemoryPollingPeripheral.serve_of_not_covers hcovers, houtside hcovers]
      rfl
    | true =>
      cases r with
      | error panic =>
        rw [MemoryPollingPeripheral.serve_of_panic hcovers rfl hcall]
        rfl
      | ok r =>
        rw [MemoryPollingPeripheral.serve_of_ok hcovers rfl hcall]
        rfl
  cases e with
  | read address size =>
    exact hserve address (fun p => PollingPeripheralHandler.handleInput p state address size)
      (can.handleInput state address) rfl fun hcovers => handleInput_of_not_covers hcovers state
  | write address size value =>
    exact hserve address
      (fun p => PollingPeripheralHandler.handleOutput p state address value size)
      (can.handleOutput state address value) rfl
      fun hcovers => handleOutput_of_not_covers hcovers state value
  | operate operation =>
    cases operation with
    | enqueue canId data =>
      simp only [Polling.Event.apply, MemoryPollingPeripheral.operate, hooked, CanOperation.apply,
        toEvent, System.step]
      cases can.enqueueCanMsg O canId data <;> rfl
    | dequeue | clear => rfl
  | execute state => rfl

/-- A step of a thread on a free peripheral: it goes on as its emulator does, or it panics and
leaves the lock poisoned. -/
theorem act_cases {can : RSCan api} {state : PCodeState O} {e : Polling.Event CanOperation O}
    {hook' : MemoryPollingPeripheral (RSCan api)} {thread' : Option (PCodeState O)}
    (h : Act (CanOperation.apply O) (hooked can) (some state) e hook' thread') :
    (∃ s : System api O, (⟨can, state⟩ : System api O).step (toEvent e) = .ok s ∧
      hook' = hooked s.can ∧ thread' = some s.state) ∨
    ((∀ s, (⟨can, state⟩ : System api O).step (toEvent e) ≠ .ok s) ∧
      hook'.peripheral = .poisoned ∧ thread' = none) := by
  obtain ⟨state, heq, h⟩ := h
  cases heq
  have heq := apply_eq can state e
  cases hstep : (⟨can, state⟩ : System api O).step (toEvent e) with
  | ok s =>
    rw [hstep] at heq
    obtain ⟨r, hr, rfl, rfl⟩ | ⟨⟨panic, hpanic⟩, -⟩ := h
    · rw [hr] at heq
      obtain ⟨hhook, hstate⟩ := Prod.mk.inj (Option.some.inj heq)
      exact .inl ⟨s, rfl, hhook, congrArg some hstate⟩
    · rw [hpanic] at heq
      cases heq
  | error panic =>
    rw [hstep] at heq
    obtain ⟨r, hr, -⟩ | ⟨-, rfl, rfl⟩ := h
    · rw [hr] at heq
      cases heq
    · exact .inr ⟨fun s hs => (by cases hs), rfl, rfl⟩

/-- A thread goes on where its emulator does. -/
theorem step_of_system {q r : Threads κ (RSCan api) O} {s t : System api O} {i : κ}
    {e : Polling.Event CanOperation O} (h : s.step (toEvent e) = .ok t)
    (hq : q.shared = hooked s.can) (hqi : q.own i = some s.state) (hr : r.shared = hooked t.can)
    (hri : r.own i = some t.state) (hothers : ∀ k, k ≠ i → r.own k = q.own k) :
    Step (Act (CanOperation.apply O)) q (.act i e) r := by
  have heq := apply_eq s.can s.state e
  rw [h] at heq
  refine .act i e ⟨s.state, hqi, .inl ?_⟩ hothers
  rw [hq, hr, hri]
  cases happly : e.apply (CanOperation.apply O) (hooked s.can) s.state with
  | error panic =>
    rw [happly] at heq
    cases heq
  | ok returned =>
    rw [happly] at heq
    obtain ⟨hhook, hstate⟩ := Prod.mk.inj (Option.some.inj heq)
    exact ⟨returned, rfl, hhook.symm, congrArg some hstate.symm⟩

/-! ## Messages -/

/-- An identifier and the bytes of a message. -/
abbrev Content :=
  UInt32 × List UInt8

/-- The messages that an event takes from the front of a queue. -/
def Event.takes (contents : List Content) : Event O → List Content
  | .dequeue => contents.take 1
  | .clear => contents
  | .output address _ => if address = Reg.rfpctr0.addr then contents.take 1 else []
  | _ => []

/-- The messages that an event puts at the end of a queue. -/
def Event.puts (e : Event O) : List Content :=
  (e.message.map (Message.content O)).toList

theorem take_one_append_contents (can : RSCan api) :
    can.contents.take 1 ++ can.dequeueCanMsg.2.contents = can.contents := by
  rw [RSCan.contents, RSCan.contents, dequeueCanMsg, List.map_tail, ← List.drop_one,
    List.take_append_drop]

open FifoStatusLemmas in
/-- A step of one emulator takes messages from the front and puts some at the end. -/
theorem conserved_of_step (hapi : api.Lawful) {s t : System api O} {e : Event O}
    (hmode : s.can.selectVcanMode = false) (h : s.step e = .ok t) :
    e.takes s.can.contents ++ t.can.contents = s.can.contents ++ e.puts := by
  cases e with
  | enqueue canId data =>
    obtain ⟨r, hok, rfl⟩ := exists_of_map_eq_ok h
    obtain ⟨frame, hnew, -, -, hqueue⟩ := enqueueCanMsg_cases hmode hok
    have hid := hapi.id_newFrame _ _ _ hnew
    have hdata := hapi.data_newFrame _ _ _ hnew
    simp [Event.takes, Event.puts, Event.message, Message.content, RSCan.contents, hqueue, hid,
      hdata]
  | dequeue =>
    cases h
    simp [Event.takes, Event.puts, Event.message, take_one_append_contents]
  | clear =>
    cases h
    simp [Event.takes, Event.puts, Event.message, RSCan.contents, clearCanMsgQueue]
  | init | execute =>
    cases h
    simp [Event.takes, Event.puts, Event.message]
  | input address =>
    obtain ⟨access, hok, rfl⟩ := exists_of_map_eq_ok h
    simp [Event.takes, Event.puts, Event.message, can_of_handleInput hmode hok]
  | output address value =>
    obtain ⟨access, hok, rfl⟩ := exists_of_map_eq_ok h
    simp only [Event.takes, Event.puts, Event.message, can_of_handleOutput hmode hok]
    split_ifs
    · simp [take_one_append_contents]
    · simp

/-- The state that a read of `address` leaves when the message is at the head. -/
def Content.shown (content : Content) (address : Address) (state : PCodeState O) : PCodeState O :=
  if address = Reg.rfid0.addr then state.writeU32 Reg.rfid0.addr (rfidWord content.1)
  else if address = Reg.rfptr0.addr then state.writeU32 Reg.rfptr0.addr ((8 : UInt32) <<< 28)
  else state.write Reg.rfdf00.addr 8 (UInt64.ofNat (decode .le content.2)).toNat

/-- A read that needs a message shows the one at the head. -/
theorem step_shown {s : System api O} (h : Stocked s.can) {content : Content}
    {rest : List Content} (hcontents : s.can.contents = content :: rest) {address : Address}
    (hneeds : (Event.input address : Event O).NeedsMessage) :
    s.step (.input address) = .ok ⟨s.can, content.shown address s.state⟩ := by
  cases hq : s.can.dataQueue with
  | nil => simp [RSCan.contents, hq] at hcontents
  | cons frame frames =>
    have hhead : s.can.dataQueue.head? = some frame := by simp [hq]
    have hlen := h.data frame (by simp [hq])
    have hcontent : content = (api.id frame, api.data frame) := by
      simp [RSCan.contents, hq] at hcontents
      exact hcontents.1.symm
    subst hcontent
    rcases hneeds with rfl | rfl | hrfdf
    · rw [System.step, handleInput_rfptr0, inputRfptr0_ok _ hhead hlen]
      simp [Content.shown, Reg.addr_inj, Except.map]
    · rw [System.step, handleInput_rfid0, inputRfid0_ok _ (currentFrame_of_queued h.mode hhead)]
      simp [Content.shown, Except.map]
    · rw [System.step, handleInput_rfdf _ _ hrfdf,
        inputRfdf_ok _ (currentFrame_of_queued h.mode hhead) (readU64LE_of_length hlen)]
      have hrfid0 : address ≠ Reg.rfid0.addr := by
        rintro rfl
        exact absurd hrfdf (by decide)
      have hrfptr0 : address ≠ Reg.rfptr0.addr := by
        rintro rfl
        exact absurd hrfdf (by decide)
      simp [Content.shown, hrfid0, hrfptr0, Except.map]

/-- Without a message such a read panics, and so does a release. -/
theorem not_step_of_empty {s : System api O} (h : Stocked s.can) (hempty : s.can.contents = [])
    {e : Event O} (hneeds : e.NeedsMessage) (t : System api O) : s.step e ≠ .ok t := by
  have hqueue : ¬ s.can.dataQueue ≠ [] := by
    simpa [RSCan.contents] using hempty
  intro hstep
  cases e with
  | input address =>
    rcases hneeds with rfl | rfl | hrfdf
    · exact hqueue ((EmptyFifoLemmas.isOk_rfptr0 h).mp ⟨t, hstep⟩)
    · exact hqueue ((EmptyFifoLemmas.isOk_rfid0 h).mp ⟨t, hstep⟩)
    · exact hqueue ((EmptyFifoLemmas.isOk_rfdf h hrfdf).mp ⟨t, hstep⟩)
  | output address value =>
    cases hneeds
    exact hqueue ((EmptyFifoLemmas.isOk_rfpctr0 value).mp ⟨t, hstep⟩)
  | enqueue | dequeue | clear | init | execute => exact hneeds

/-! ## Runs of the threads -/

abbrev ThreadEvent (κ : Type) (O : Order) :=
  Interleaving.Event κ (Polling.Event CanOperation O)

/-- The messages in the queue behind the lock. -/
def queued (w : Threads κ (RSCan api) O) : List Content :=
  match w.shared.peripheral with
  | .free can => can.contents
  | .poisoned => []

/-- The messages that a step takes from the queue, each with the thread that takes it. -/
def takes (w : Threads κ (RSCan api) O) : ThreadEvent κ O → List (κ × Content)
  | .act i e => ((toEvent e).takes (queued w)).map (Prod.mk i)
  | .clone _ _ => []

def puts : ThreadEvent κ O → List Content
  | .act _ e => (toEvent e).puts
  | .clone _ _ => []

/-- The messages that were taken in a run, in order, each with the thread that took it. -/
def delivered (tr : List (Threads κ (RSCan api) O × ThreadEvent κ O)) : List (κ × Content) :=
  tr.flatMap fun x => takes x.1 x.2

/-- The messages that were put into the queue in a run, in order. -/
def submitted (tr : List (Threads κ (RSCan api) O × ThreadEvent κ O)) : List Content :=
  tr.flatMap fun x => puts x.2

/-- While the lock is free there is a peripheral in queued mode behind it. -/
def Ready (w : Threads κ (RSCan api) O) : Prop :=
  ∀ can, w.shared.peripheral = .free can → w.shared = hooked can ∧ Stocked can

namespace ClonesLemmas

variable {s t q r : Threads κ (RSCan api) O}
  {tr : List (Threads κ (RSCan api) O × ThreadEvent κ O)} {x : ThreadEvent κ O}

theorem step_cases {can : RSCan api} (hq : q.shared = hooked can) {i : κ}
    {e : Polling.Event CanOperation O} (h : Step (Act (CanOperation.apply O)) q (.act i e) r) :
    ∃ state, q.own i = some state ∧
      ((∃ s : System api O, (⟨can, state⟩ : System api O).step (toEvent e) = .ok s ∧
          r.shared = hooked s.can ∧ r.own i = some s.state) ∨
        ((∀ s, (⟨can, state⟩ : System api O).step (toEvent e) ≠ .ok s) ∧
          r.shared.peripheral = .poisoned ∧ r.own i = none)) := by
  cases h with
  | act _ _ hact _ =>
    obtain ⟨state, hown, hact⟩ := hact
    rw [hq] at hact
    exact ⟨state, hown, act_cases ⟨state, rfl, hact⟩⟩

theorem ready_of_step (hapi : api.Lawful) (hq : Ready q)
    (h : Step (Act (CanOperation.apply O)) q x r) : Ready r := by
  intro can' hr
  obtain ⟨can, hfree⟩ := Polling.exists_free_of_run (.cons h (.nil r)) hr
  obtain ⟨hshared, hstocked⟩ := hq can hfree
  cases x with
  | act i e =>
    obtain ⟨state, -, ⟨s, hstep, hrs, -⟩ | ⟨-, hpoisoned, -⟩⟩ := step_cases hshared h
    · rw [hrs] at hr ⊢
      cases hr
      exact ⟨rfl, stocked_of_step hapi (s := ⟨can, state⟩) hstocked hstep⟩
    · cases hr.symm.trans hpoisoned
  | clone i j =>
    cases h with
    | clone _ _ hsame _ _ =>
      rw [hsame] at hr ⊢
      exact hq can' hr

theorem ready_start {w : Threads κ (RSCan api) O} (h : w.shared = hooked (newQueued api)) :
    Ready w := by
  intro can hfree
  rw [h] at hfree
  cases hfree
  exact ⟨h, rfl, fun _ hframe => absurd hframe List.not_mem_nil⟩

theorem queued_eq {w : Threads κ (RSCan api) O} {can : RSCan api}
    (h : w.shared.peripheral = .free can) : queued w = can.contents := by
  rw [queued, h]

theorem conserved_of_run (hapi : api.Lawful) (h : Run (Step (Act (CanOperation.apply O))) s tr t)
    (hs : Ready s) {can : RSCan api} (ht : t.shared.peripheral = .free can) :
    (delivered tr).map Prod.snd ++ queued t = queued s ++ submitted tr := by
  have hready := (h.invariant_mem Ready hs fun _ _ _ _ hq => ready_of_step hapi hq).2
  rw [delivered, List.map_flatMap]
  refine h.conserved queued (fun w x => (takes w x).map Prod.snd) (fun _ x => puts x)
    fun q x r tr' hm hstep hrest => ?_
  -- the lock is free at the end, so it was free at every step
  obtain ⟨can₂, hr⟩ := Polling.exists_free_of_run hrest ht
  obtain ⟨can₁, hq⟩ := Polling.exists_free_of_run (.cons hstep hrest) ht
  obtain ⟨hshared, hstocked⟩ := hready q x hm can₁ hq
  rw [queued_eq hq, queued_eq hr]
  cases x with
  | act i e =>
    obtain ⟨state, -, ⟨s, hs, hrs, -⟩ | ⟨-, hpoisoned, -⟩⟩ := step_cases hshared hstep
    · rw [hrs] at hr
      cases hr
      have hsystem := conserved_of_step hapi (s := ⟨can₁, state⟩) hstocked.mode hs
      simpa [takes, puts, queued_eq hq] using hsystem
    · cases hr.symm.trans hpoisoned
  | clone i j =>
    cases hstep with
    | clone _ _ hsame _ _ =>
      rw [hsame, hq] at hr
      cases hr
      simp [takes, puts]

theorem queued_start {w : Threads κ (RSCan api) O} (h : w.shared = hooked (newQueued api)) :
    queued w = [] := by
  rw [queued, h]
  rfl

/-- A read of any thread shows the first message that was not taken yet. -/
theorem read_of_run (hapi : api.Lawful) (h : Run (Step (Act (CanOperation.apply O))) s tr t)
    (hs : s.shared = hooked (newQueued api)) {can : RSCan api}
    (ht : t.shared.peripheral = .free can) {i : κ} {address : Address} {size : Nat}
    {w : Threads κ (RSCan api) O} (hneeds : (Event.input address : Event O).NeedsMessage)
    (hstep : Step (Act (CanOperation.apply O)) t (.act i (.read address size)) w) :
    (∀ content, (submitted tr)[(delivered tr).length]? = some content →
      w.shared = t.shared ∧ w.own i = (t.own i).map (content.shown address)) ∧
    ((submitted tr).length ≤ (delivered tr).length →
      w.shared.peripheral = .poisoned ∧ w.own i = none) := by
  have hconserved := conserved_of_run hapi h (ready_start hs) ht
  rw [queued_start hs, List.nil_append, queued_eq ht] at hconserved
  have hready := h.invariant Ready (fun _ _ _ hq => ready_of_step hapi hq) (ready_start hs)
  obtain ⟨hshared, hstocked⟩ := hready can ht
  -- what is left in the queue is what was submitted, less what was delivered
  have hnext : can.contents = (submitted tr).drop (delivered tr).length := by
    rw [← hconserved, List.drop_left' (by simp)]
  obtain ⟨state, hown, hcases⟩ := step_cases hshared hstep
  refine ⟨fun content hcontent => ?_, fun hle => ?_⟩
  · obtain ⟨hlt, rfl⟩ := List.getElem?_eq_some_iff.mp hcontent
    have hcontents := hnext.trans (List.drop_eq_getElem_cons hlt)
    have hshown := step_shown (s := ⟨can, state⟩) hstocked hcontents hneeds
    obtain ⟨s', hs', hw, hown'⟩ | ⟨hpanic, -, -⟩ := hcases
    · cases hshown.symm.trans hs'
      exact ⟨hw.trans hshared.symm, by rw [hown', hown]; rfl⟩
    · exact absurd hshown (hpanic _)
  · rw [List.drop_of_length_le hle] at hnext
    obtain ⟨s', hs', -, -⟩ | ⟨-, hpoisoned, hnone⟩ := hcases
    · exact absurd hs' (not_step_of_empty (s := ⟨can, state⟩) hstocked hnext hneeds s')
    · exact ⟨hpoisoned, hnone⟩

/-- A read that goes on found a message. -/
theorem read_shows_of_free (hapi : api.Lawful)
    (h : Run (Step (Act (CanOperation.apply O))) s tr t)
    (hs : s.shared = hooked (newQueued api)) {can can' : RSCan api}
    (ht : t.shared.peripheral = .free can) {i : κ} {address : Address} {size : Nat}
    {w : Threads κ (RSCan api) O} (hw : w.shared.peripheral = .free can')
    (hneeds : (Event.input address : Event O).NeedsMessage)
    (hstep : Step (Act (CanOperation.apply O)) t (.act i (.read address size)) w) :
    ∃ state content, t.own i = some state ∧
      (submitted tr)[(delivered tr).length]? = some content ∧
      w.own i = some (content.shown address state) := by
  obtain ⟨hshows, hpanics⟩ := read_of_run hapi h hs ht hneeds hstep
  have hlt : (delivered tr).length < (submitted tr).length := by
    refine Nat.not_le.mp fun hle => ?_
    cases hw.symm.trans (hpanics hle).1
  have hcontent := List.getElem?_eq_getElem hlt
  cases hstep with
  | act _ _ hact _ =>
    obtain ⟨state, hown, -⟩ := hact
    refine ⟨state, _, hown, hcontent, ?_⟩
    rw [(hshows _ hcontent).2, hown]
    rfl

end ClonesLemmas

open ClonesLemmas

/-- Across all threads every message that was put into the queue is taken once, in order. A
read of any thread shows the first message that is left; when none is, it panics, and poisons
the peripheral for all of them. -/
theorem clones_deliver (hapi : api.Lawful) {s t : Threads κ (RSCan api) O}
    {tr : List (Threads κ (RSCan api) O × ThreadEvent κ O)}
    (h : Run (Step (Act (CanOperation.apply O))) s tr t)
    (hs : s.shared = hooked (newQueued api)) {can : RSCan api}
    (ht : t.shared.peripheral = .free can) :
    (delivered tr).map Prod.snd ++ can.contents = submitted tr ∧
      ∀ i address size w, (Event.input address : Event O).NeedsMessage →
        Step (Act (CanOperation.apply O)) t (.act i (.read address size)) w →
        (∀ content, (submitted tr)[(delivered tr).length]? = some content →
          w.shared = t.shared ∧ w.own i = (t.own i).map (content.shown address)) ∧
        ((submitted tr).length ≤ (delivered tr).length →
          w.shared.peripheral = .poisoned ∧ w.own i = none) := by
  have hconserved := conserved_of_run hapi h (ready_start hs) ht
  rw [queued_start hs, List.nil_append, queued_eq ht] at hconserved
  exact ⟨hconserved, fun _ _ _ _ hneeds hstep => read_of_run hapi h hs ht hneeds hstep⟩

/-- Two threads that share a peripheral, each with a memory. -/
def pair (can : RSCan SocketCan.plain) (memory : Bool → PCodeState .le) :
    Threads Bool (RSCan SocketCan.plain) .le :=
  ⟨hooked can, fun i => some (memory i)⟩

/-- A peripheral with these messages in its queue. -/
def holding (contents : List Content) : RSCan SocketCan.plain :=
  { newQueued SocketCan.plain with
    dataQueue := contents
    queue_of_vcan := fun hvcan => by cases hvcan }

def firstContent : Content :=
  (0x123, encode .le 8 0x0807060504030201)

def secondContent : Content :=
  (0x456, encode .le 8 0x1817161514131211)

/-- The memories of the two threads after so many reads of the second one: the identifier of
the first message, and the data of the second. -/
def afterReads (n : Nat) (second : Bool) : PCodeState .le :=
  match second, n with
  | true, 1 => firstContent.shown Reg.rfid0.addr (blank .le)
  | true, 2 => secondContent.shown Reg.rfdf00.addr (firstContent.shown Reg.rfid0.addr (blank .le))
  | _, _ => blank .le

/-- The first thread puts two messages into the queue. -/
def twoSubmitted : List (Threads Bool (RSCan SocketCan.plain) .le × ThreadEvent Bool .le) :=
  [(pair (holding []) (afterReads 0), .act false (.operate (.enqueue 0x123 0x0807060504030201))),
    (pair (holding [firstContent]) (afterReads 0),
      .act false (.operate (.enqueue 0x456 0x1817161514131211)))]

/-- It releases the first one. -/
def firstReleased : List (Threads Bool (RSCan SocketCan.plain) .le × ThreadEvent Bool .le) :=
  [(pair (holding [firstContent, secondContent]) (afterReads 1),
    .act false (.write Reg.rfpctr0.addr 1 [0xff]))]

/-- The second thread reads an identifier before the release, and data after it. -/
def handover : List (Threads Bool (RSCan SocketCan.plain) .le × ThreadEvent Bool .le) :=
  twoSubmitted ++ (pair (holding [firstContent, secondContent]) (afterReads 0),
    .act true (.read Reg.rfid0.addr 4)) :: (firstReleased ++
      [(pair (holding [secondContent]) (afterReads 1), .act true (.read Reg.rfdf00.addr 4))])

namespace ClonesLemmas

theorem step_pair {can can' : RSCan SocketCan.plain} {memory memory' : Bool → PCodeState .le}
    {i : Bool} {e : Polling.Event CanOperation .le}
    (h : (⟨can, memory i⟩ : System SocketCan.plain .le).step (toEvent e) = .ok ⟨can', memory' i⟩)
    (hothers : ∀ k, k ≠ i → memory' k = memory k) :
    Step (Act (CanOperation.apply .le)) (pair can memory) (.act i e) (pair can' memory') :=
  step_of_system h rfl rfl rfl rfl fun k hk => congrArg some (hothers k hk)

theorem run_handover : Run (Step (Act (CanOperation.apply .le)))
    (pair (holding []) (afterReads 0)) handover
      (pair (holding [secondContent]) (afterReads 2)) := by
  have hboth : Stocked (holding [firstContent, secondContent]) := ⟨rfl, by decide⟩
  have hsecond : Stocked (holding [secondContent]) := ⟨rfl, by decide⟩
  have hkept : ∀ m n k, k ≠ true → afterReads m k = afterReads n k := by
    intro m n k hk
    rw [Bool.eq_false_iff.mpr hk]
    rfl
  have hid : Step (Act (CanOperation.apply .le))
      (pair (holding [firstContent, secondContent]) (afterReads 0))
      (.act true (.read Reg.rfid0.addr 4))
      (pair (holding [firstContent, secondContent]) (afterReads 1)) :=
    step_pair (step_shown (s := ⟨_, blank .le⟩) hboth rfl (.inr (.inl rfl))) (hkept 1 0)
  have hdata : Step (Act (CanOperation.apply .le))
      (pair (holding [secondContent]) (afterReads 1)) (.act true (.read Reg.rfdf00.addr 4))
      (pair (holding [secondContent]) (afterReads 2)) :=
    step_pair (step_shown (s := ⟨_, afterReads 1 true⟩) hsecond rfl (.inr (.inr (by decide))))
      (hkept 2 1)
  refine .cons (step_pair rfl fun _ _ => rfl) (.cons (step_pair rfl fun _ _ => rfl)
    (.cons hid (.cons (step_pair ?_ fun _ _ => rfl) (.cons hdata (.nil _)))))
  rfl

end ClonesLemmas

theorem critical_sections_handover :
    (Mutex.free (holding [secondContent]) : Mutex (RSCan SocketCan.plain)) = Mutex.ofExcept
      ((Polling.sections (CanOperation.apply .le) handover).foldlM (fun p f => f p)
        (holding [])) :=
  (Polling.critical_sections run_handover rfl).1

/-- One message was taken, and the next read shows the other. -/
theorem clones_deliver_handover :
    (delivered handover).map Prod.snd ++ (holding [secondContent]).contents = submitted handover ∧
      ∀ w, Step (Act (CanOperation.apply .le)) (pair (holding [secondContent]) (afterReads 2))
          (.act false (.read Reg.rfid0.addr 4)) w →
        w.own false = some (secondContent.shown Reg.rfid0.addr (blank .le)) := by
  obtain ⟨hconserved, hreads⟩ := clones_deliver SocketCan.lawful_plain run_handover rfl rfl
  refine ⟨hconserved, fun w hstep => ?_⟩
  exact ((hreads false Reg.rfid0.addr 4 w (.inr (.inl rfl)) hstep).1 secondContent rfl).2

/-- Two reads of one thread, with steps of other threads in between, in a run that leaves the
lock free: the second read shows the message that comes as many places after the first one as
others have taken meanwhile. -/
theorem clones_tear (hapi : api.Lawful) {s t q₁ q₂ : Threads κ (RSCan api) O}
    {tr₁ tr₂ : List (Threads κ (RSCan api) O × ThreadEvent κ O)} {i : κ}
    {address₁ address₂ : Address} {size₁ size₂ : Nat}
    (h : Run (Step (Act (CanOperation.apply O))) s
      (tr₁ ++ (q₁, .act i (.read address₁ size₁)) ::
        (tr₂ ++ [(q₂, .act i (.read address₂ size₂))])) t)
    (hs : s.shared = hooked (newQueued api))
    (hneeds₁ : (Event.input address₁ : Event O).NeedsMessage)
    (hneeds₂ : (Event.input address₂ : Event O).NeedsMessage)
    (hidle : ∀ q x, (q, x) ∈ tr₂ → ¬ x.touches i) {can : RSCan api}
    (ht : t.shared.peripheral = .free can) :
    ∃ state content₁ content₂, q₁.own i = some state ∧
      (submitted tr₁)[(delivered tr₁).length]? = some content₁ ∧
      (submitted (tr₁ ++ tr₂))[(delivered tr₁).length + (delivered tr₂).length]? =
        some content₂ ∧
      t.own i = some (content₂.shown address₂ (content₁.shown address₁ state)) := by
  obtain ⟨h₁, r₁, hstep₁, hrest⟩ := h.at
  obtain ⟨h₂, r₂, hstep₂, hnil⟩ := hrest.at
  cases hnil with
  | nil =>
    obtain ⟨can₁, hq₁⟩ := Polling.exists_free_of_run (.cons hstep₁ hrest) ht
    obtain ⟨can₁', hr₁⟩ := Polling.exists_free_of_run hrest ht
    obtain ⟨can₂, hq₂⟩ := Polling.exists_free_of_run (.cons hstep₂ (.nil _)) ht
    obtain ⟨state, content₁, hown₁, hcontent₁, hread₁⟩ :=
      read_shows_of_free hapi h₁ hs hq₁ hr₁ hneeds₁ hstep₁
    rw [← List.cons_append, ← List.append_assoc] at h
    obtain ⟨state₂, content₂, hown₂, hcontent₂, hread₂⟩ :=
      read_shows_of_free hapi h.at.1 hs hq₂ ht hneeds₂ hstep₂
    -- the memory of the thread at the second read is what its first read left
    have hsame := own_of_run h₂ hidle
    rw [hown₂, hread₁] at hsame
    cases hsame
    refine ⟨state, content₁, content₂, hown₁, hcontent₁, ?_, hread₂⟩
    simpa [submitted, delivered, takes, puts, toEvent, Event.takes, Event.puts, Event.message]
      using hcontent₂

/-- The identifier is that of the first message, and the data are those of the second. -/
theorem clones_tear_handover : ∃ state content₁ content₂,
    (pair (holding [firstContent, secondContent]) (afterReads 0)).own true = some state ∧
      (submitted twoSubmitted)[(delivered twoSubmitted).length]? = some content₁ ∧
      (submitted (twoSubmitted ++ firstReleased))[(delivered twoSubmitted).length +
        (delivered firstReleased).length]? = some content₂ ∧
      (pair (holding [secondContent]) (afterReads 2)).own true =
        some (content₂.shown Reg.rfdf00.addr (content₁.shown Reg.rfid0.addr state)) := by
  refine clones_tear SocketCan.lawful_plain run_handover rfl (.inr (.inl rfl))
    (.inr (.inr (by decide))) (fun q x hm => ?_) rfl
  cases List.mem_singleton.mp hm
  exact Bool.false_ne_true

end FuguexPeripheral.V850
