import FuguexPeripheral.V850.Footprint

/-!
# What takes the emulators down

A panic under the lock poisons the peripheral for every emulator that shares it. In queued
mode one number is enough to tell when: a monitor that counts the pending messages, and sees
the accesses but no memory and no message, knows whether the lock is still free.

Results:
1. `isOk_step_iff`: when a step of one emulator goes on.
2. `free_iff`: the monitor is right about every interleaving.
-/

namespace FuguexPeripheral.V850

open ByteStore Fallible Runs RSCan Interleaving ReadOrderLemmas
open Polling (Act Threads)

variable {api : SocketCan} {O : Order} {κ : Type}

/-! ## The monitor -/

/-- With `n` messages pending, a read of the register does not panic. -/
def Reg.bears (n : Nat) (r : Reg) : Bool :=
  (r ≠ .rfsts0 || n < 256) && (!r.ofMessage || n ≠ 0)

/-- With `n` messages pending, the event does not panic. -/
def Event.bears (api : SocketCan) (n : Nat) : Event O → Bool
  | .enqueue canId data => (api.newFrame canId (encode O 8 data.toNat) false false).isOk
  | .input address => (served address).all (Reg.bears n)
  | .output address value =>
    -- a request for a frame never gets past the first data register
    if address = Reg.tmc0.addr then value.head?.any fun tmcValue => tmcValue &&& 0x01 = 0
    else address ≠ Reg.rfpctr0.addr || n ≠ 0
  | _ => true

/-- The number of pending messages after the event, unless it panics. -/
def Event.counted (api : SocketCan) (n : Nat) (e : Event O) : Option Nat :=
  if e.bears api n then some (e.unreadAfter n) else none

/-- The monitor of a sequence of events that starts with an empty queue. -/
def monitor (api : SocketCan) (es : List (Event O)) : Option Nat :=
  es.foldlM (Event.counted api) 0

/-- What the threads do, in the order in which they do it. -/
def events (tr : List (Threads κ (RSCan api) O × ThreadEvent κ O)) : List (Event O) :=
  tr.filterMap fun x =>
    match x.2 with
    | .act _ e => some (toEvent e)
    | .clone _ _ => none

namespace SurvivalLemmas

variable {s : System api O} {q r : Threads κ (RSCan api) O}

/-! ## One step -/

theorem readable_iff {can : RSCan api} {r : Reg} :
    Readable can r ↔ r.bears can.dataQueue.length = true := by
  have hlength : can.contents.length = can.dataQueue.length := by simp [RSCan.contents]
  have hempty : can.contents = [] ↔ can.dataQueue = [] := by simp [RSCan.contents]
  rw [Readable, hlength, ne_eq, hempty, ← List.length_eq_zero_iff]
  simp [Reg.bears, imp_iff_not_or]

theorem isOk_input (h : Stocked s.can) {address : Address} :
    (∃ t, s.step (.input address) = .ok t) ↔
      (Event.input address : Event O).bears api s.can.dataQueue.length = true := by
  rw [Event.bears]
  cases hserved : served address with
  | none => simp [step_of_not_served hserved]
  | some r =>
    rw [Option.all_some, ← readable_iff]
    constructor
    · rintro ⟨t, hstep⟩
      by_contra hr
      exact not_step_of_not_readable h hserved hr t hstep
    · exact fun hr => ⟨_, step_of_readable h hserved hr⟩

theorem isOk_tmc0 {value : List UInt8} :
    (∃ t, s.step (.output Reg.tmc0.addr value) = .ok t) ↔
      (value.head?.any fun tmcValue => tmcValue &&& 0x01 = 0) = true := by
  rw [System.step, TransmitLemmas.handleOutput_tmc0]
  cases value with
  | nil => simp [outputTmc0, Except.map]
  | cons tmcValue rest =>
    by_cases hbit : tmcValue &&& 0x01 = 0
    · simp [outputTmc0, hbit, Except.map]
    · simp [TransmitLemmas.outputTmc0_panics s.can s.state rest hbit, hbit, Except.map]

theorem isOk_output {address : Address} {value : List UInt8} :
    (∃ t, s.step (.output address value) = .ok t) ↔
      (Event.output address value : Event O).bears api s.can.dataQueue.length = true := by
  rw [Event.bears]
  by_cases htmc0 : address = Reg.tmc0.addr
  · subst htmc0
    rw [if_pos rfl, isOk_tmc0]
  · rw [if_neg htmc0]
    by_cases hrfpctr0 : address = Reg.rfpctr0.addr
    · subst hrfpctr0
      rw [EmptyFifoLemmas.isOk_rfpctr0, ne_eq, ← List.length_eq_zero_iff]
      simp
    · refine iff_of_true ?_ (by simp [hrfpctr0])
      by_cases hquiet : address = Reg.tmsts0.addr ∨ isTmdf address
      · rcases hquiet with rfl | htmdf
        · exact ⟨_, rfl⟩
        · by_cases htmsts0 : address = Reg.tmsts0.addr <;>
            simp [System.step, handleOutput, htmsts0, htmdf, Except.map]
      · simp only [not_or] at hquiet
        simp [System.step, handleOutput, hquiet, htmc0, hrfpctr0, Except.map]

/-- A step of one emulator goes on exactly where the monitor says so. -/
theorem isOk_step_iff (h : Stocked s.can) (e : Event O) :
    (∃ t, s.step e = .ok t) ↔ e.bears api s.can.dataQueue.length = true := by
  cases e with
  | enqueue canId data =>
    rw [Event.bears]
    constructor
    · rintro ⟨t, hstep⟩
      obtain ⟨r, hok, -⟩ := exists_of_map_eq_ok hstep
      obtain ⟨frame, hnew, -⟩ := enqueueCanMsg_cases h.mode hok
      rw [hnew]
      rfl
    · intro hok
      cases hnew : api.newFrame canId (encode O 8 data.toNat) false false with
      | error e =>
        rw [hnew] at hok
        cases hok
      | ok frame => exact ⟨_, congrArg (Except.map _) (enqueueCanMsg_of_newFrame h.mode hnew)⟩
  | dequeue | clear | init | execute => exact iff_of_true ⟨_, rfl⟩ rfl
  | input address => exact isOk_input h
  | output address value => exact isOk_output

/-! ## Runs -/

/-- What the monitor stands for: the queue behind the lock, or a poisoned lock. -/
def Stands (w : Threads κ (RSCan api) O) : Option Nat → Prop
  | some n => ∃ can, w.shared = hooked can ∧ Stocked can ∧ can.dataQueue.length = n
  | none => w.shared.peripheral = .poisoned

theorem stands_congr {o : Option Nat} (h : r.shared = q.shared) (hq : Stands q o) :
    Stands r o := by
  cases o with
  | none =>
    show r.shared.peripheral = .poisoned
    rw [h]
    exact hq
  | some n =>
    obtain ⟨can, hshared, hrest⟩ := hq
    exact ⟨can, h.trans hshared, hrest⟩

theorem free_iff_of_stands {o : Option Nat} (h : Stands q o) (n : Nat) :
    (∃ can, q.shared.peripheral = .free can ∧ can.dataQueue.length = n) ↔ o = some n := by
  cases o with
  | none =>
    refine iff_of_false ?_ (by simp)
    rintro ⟨can, hfree, -⟩
    cases hfree.symm.trans h
  | some m =>
    obtain ⟨can, hshared, -, rfl⟩ := h
    rw [hshared]
    constructor
    · rintro ⟨_, ⟨⟩, rfl⟩
      rfl
    · rintro ⟨⟩
      exact ⟨can, rfl, rfl⟩

theorem poisoned_of_step {x : ThreadEvent κ O} (h : Step (Act (CanOperation.apply O)) q x r)
    (hq : q.shared.peripheral = .poisoned) : r.shared.peripheral = .poisoned := by
  cases hr : r.shared.peripheral with
  | poisoned => rfl
  | free can =>
    obtain ⟨can', hfree⟩ := Polling.exists_free_of_run (.cons h (.nil r)) hr
    cases hq.symm.trans hfree

theorem stands_of_act (hapi : api.Lawful) {i : κ} {e : Polling.Event CanOperation O}
    {o : Option Nat} (h : Step (Act (CanOperation.apply O)) q (.act i e) r) (hq : Stands q o) :
    Stands r (o.bind fun n => (toEvent e).counted api n) := by
  cases o with
  | none => exact poisoned_of_step h hq
  | some n =>
    obtain ⟨can, hshared, hstocked, rfl⟩ := hq
    show Stands r (Event.counted api _ _)
    obtain ⟨state, -, ⟨s, hs, hr, -⟩ | ⟨hpanics, hr, -⟩⟩ := ClonesLemmas.step_cases hshared h
    · have hbears := (isOk_step_iff (s := ⟨can, state⟩) hstocked _).mp ⟨s, hs⟩
      rw [Event.counted, if_pos hbears]
      exact ⟨s.can, hr, stocked_of_step hapi (s := ⟨can, state⟩) hstocked hs,
        (step_queue (s := ⟨can, state⟩) hstocked.mode hs).2⟩
    · have hbears : ¬ (toEvent e).bears api can.dataQueue.length = true := fun hbears => by
        obtain ⟨s, hs⟩ := (isOk_step_iff (s := ⟨can, state⟩) hstocked _).mpr hbears
        exact hpanics s hs
      rw [Event.counted, if_neg hbears]
      exact hr

theorem stands_of_run (hapi : api.Lawful) {s t : Threads κ (RSCan api) O}
    {tr : List (Threads κ (RSCan api) O × ThreadEvent κ O)}
    (h : Run (Step (Act (CanOperation.apply O))) s tr t)
    (hs : s.shared = hooked (newQueued api)) : Stands t (monitor api (events tr)) := by
  refine h.history (fun past w => Stands w (monitor api (events past))) ?_ ?_
  · exact ⟨newQueued api, hs, ⟨rfl, fun _ hframe => absurd hframe List.not_mem_nil⟩, rfl⟩
  · intro past q x r _ hq hstep
    rw [events, List.filterMap_append]
    cases x with
    | act i e =>
      have hnext := stands_of_act hapi hstep hq
      simpa [monitor, List.foldlM_append, events] using hnext
    | clone i j =>
      cases hstep with
      | clone _ _ hsame _ _ =>
        have hnext := stands_congr hsame hq
        simpa [events] using hnext

/-- A thread that panics leaves the lock poisoned. -/
theorem alive_of_step {x : ThreadEvent κ O} {n : Nat}
    (h : Step (Act (CanOperation.apply O)) q x r) (hq : Stands q (some n))
    (halive : ∀ i, q.own i ≠ none) (hr : r.shared.peripheral ≠ .poisoned) (i : κ) :
    r.own i ≠ none := by
  by_cases hx : x.touches i
  · cases x with
    | act k e =>
      cases hx
      obtain ⟨can, hshared, -⟩ := hq
      obtain ⟨state, -, ⟨s, -, -, hown⟩ | ⟨-, hpoisoned, -⟩⟩ := ClonesLemmas.step_cases hshared h
      · rw [hown]
        exact Option.some_ne_none _
      · exact absurd hpoisoned hr
    | clone k j =>
      cases hx
      cases h with
      | clone _ _ _ hown _ =>
        rw [hown]
        exact halive k
  · rw [h.own_eq hx]
    exact halive i

theorem alive_of_run (hapi : api.Lawful) {s t : Threads κ (RSCan api) O}
    {tr : List (Threads κ (RSCan api) O × ThreadEvent κ O)}
    (h : Run (Step (Act (CanOperation.apply O))) s tr t)
    (hs : s.shared = hooked (newQueued api)) (halive : ∀ i, s.own i ≠ none)
    (ht : t.shared.peripheral ≠ .poisoned) : ∀ i, t.own i ≠ none := by
  refine h.history (fun _ w => w.shared.peripheral ≠ .poisoned → ∀ i, w.own i ≠ none)
    (fun _ => halive) ?_ ht
  intro past q x r hpast hq hstep hr
  have hfree : q.shared.peripheral ≠ .poisoned := fun hpoisoned =>
    hr (poisoned_of_step hstep hpoisoned)
  have hstands := stands_of_run hapi hpast hs
  cases hm : monitor api (events past) with
  | none =>
    rw [hm] at hstands
    exact absurd hstands hfree
  | some n =>
    rw [hm] at hstands
    exact alive_of_step hstep hstands (hq hfree) hr

end SurvivalLemmas

open SurvivalLemmas

/-- However the threads interleave, from an empty queue: the lock is free at the end, with `n`
messages behind it, exactly if the monitor has counted to `n`. Then no thread has panicked. -/
theorem free_iff (hapi : api.Lawful) {s t : Threads κ (RSCan api) O}
    {tr : List (Threads κ (RSCan api) O × ThreadEvent κ O)}
    (h : Run (Step (Act (CanOperation.apply O))) s tr t)
    (hs : s.shared = hooked (newQueued api)) (halive : ∀ i, s.own i ≠ none) (n : Nat) :
    ((∃ can, t.shared.peripheral = .free can ∧ can.dataQueue.length = n) ↔
        monitor api (events tr) = some n) ∧
      (monitor api (events tr) = some n → ∀ i, t.own i ≠ none) := by
  have hiff := free_iff_of_stands (stands_of_run hapi h hs) n
  refine ⟨hiff, fun hm => alive_of_run hapi h hs halive ?_⟩
  obtain ⟨can, hfree, -⟩ := hiff.mpr hm
  simp [hfree]

/-- Two messages are put into the queue, both are read, and one is released. -/
theorem free_iff_handover :
    ∃ can, (pair (holding [secondContent]) (afterReads 2)).shared.peripheral = .free can ∧
      can.dataQueue.length = 1 :=
  (free_iff SocketCan.lawful_plain ClonesLemmas.run_handover rfl (by decide) 1).1.mpr rfl

/-- The message is read and released, and the identifier read once more. -/
example : monitor SocketCan.plain ([.enqueue 0x123 0x0807060504030201, .input Reg.rfid0.addr,
    .output Reg.rfpctr0.addr [0xff], .input Reg.rfid0.addr] : List (Event .le)) = none := by
  decide

end FuguexPeripheral.V850
