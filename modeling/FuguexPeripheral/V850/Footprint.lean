import FuguexPeripheral.V850.ReadOrder
import FuguexPeripheral.V850.Transmit

/-!
# What a peripheral writes to memory

The handlers refresh the bytes of a register before the firmware reads it, in either mode.
They write nowhere else: not on a write of the firmware, and not to the memory of another
emulator.

Results:
1. `changedAt_of_input`, `state_of_output`: what one step may change.
2. `memory_of_run`: what is left of the memory of an emulator after any run of the threads.
-/

namespace FuguexPeripheral.V850

open ByteStore Fallible Runs RSCan Interleaving
open Polling (Threads Act)

variable {api : SocketCan} {O : Order} {κ : Type}

/-- The byte belongs to the register that a read of `address` refreshes. -/
def RefreshesByte (address x : Address) : Prop :=
  ∃ r, served address = some r ∧ r.addr ≤ x ∧ x < r.addr + r.width

/-- `t` is `s` but for some bytes of memory. -/
structure ChangedAt (s t : PCodeState O) (touched : Address → Prop) : Prop where
  memory : ∀ x, ¬ touched x → t.memory x = s.memory x
  spaces : ∀ sp ≠ .ram, t.spaces sp = s.spaces sp
  programCounter : t.programCounter = s.programCounter

theorem ChangedAt.refl (s : PCodeState O) (touched : Address → Prop) : ChangedAt s s touched :=
  ⟨fun _ _ => rfl, fun _ _ => rfl, rfl⟩

theorem ChangedAt.trans {s t u : PCodeState O} {touched : Address → Prop}
    (h₁ : ChangedAt s t touched) (h₂ : ChangedAt t u touched) : ChangedAt s u touched where
  memory x hx := (h₂.memory x hx).trans (h₁.memory x hx)
  spaces sp hsp := (h₂.spaces sp hsp).trans (h₁.spaces sp hsp)
  programCounter := h₂.programCounter.trans h₁.programCounter

theorem ChangedAt.mono {s t : PCodeState O} {touched touched' : Address → Prop}
    (h : ChangedAt s t touched) (hsub : ∀ x, touched x → touched' x) : ChangedAt s t touched' where
  memory x hx := h.memory x fun ht => hx (hsub x ht)
  spaces := h.spaces
  programCounter := h.programCounter

namespace FootprintLemmas

variable {s t : System api O}

theorem changedAt_write (state : PCodeState O) {r : Reg} {address : Address}
    (ha : served address = some r) (v : Nat) :
    ChangedAt state (state.write r.addr r.width v) (RefreshesByte address) where
  memory x hx := by
    refine (PCodeState.changedOnly_write state r.addr r.width v).memory x ?_
    by_contra hin
    rw [not_or, Nat.not_lt, Nat.not_le] at hin
    exact hx ⟨r, ha, hin⟩
  spaces := (PCodeState.changedOnly_write state r.addr r.width v).spaces
  programCounter := rfl

/-- A read leaves the state, or writes to the register of its address, in either mode. -/
theorem state_of_handleInput {can : RSCan api} {state : PCodeState O} {address : Address} {r : Reg}
    (ha : served address = some r) {access : Access api O}
    (h : can.handleInput state address = .ok access) :
    access.state = state ∨ ∃ v, access.state = state.write r.addr r.width v := by
  unfold served at ha
  split_ifs at ha with h₁ h₂ h₃ h₄ h₅ h₆
  · subst h₁
    cases ha
    simp only [handleInput, Reg.addr_inj, if_true, reduceCtorEq, if_false] at h
    cases h
    exact .inr ⟨_, rfl⟩
  · subst h₂
    cases ha
    simp only [handleInput, Reg.addr_inj, if_true, reduceCtorEq, if_false] at h
    cases h
    exact .inr ⟨_, rfl⟩
  · subst h₃
    cases ha
    rw [handleInput_rfsts0] at h
    unfold inputRfsts0 at h
    split at h
    · cases h
    · cases h
      exact .inr ⟨_, rfl⟩
  · subst h₄
    cases ha
    rw [handleInput_rfptr0] at h
    unfold inputRfptr0 at h
    split at h
    · cases h
    · split at h
      · cases h
      · cases h
        exact .inr ⟨_, rfl⟩
  · subst h₅
    cases ha
    rw [handleInput_rfid0] at h
    obtain ⟨r, -, hrest⟩ := exists_of_bind_eq_ok h
    rcases r with e | ⟨frame, can'⟩
    -- without a socket the error is returned and nothing is written
    · cases hrest
      exact .inl rfl
    · cases hrest
      exact .inr ⟨_, rfl⟩
  · cases ha
    rw [handleInput_rfdf _ _ h₆] at h
    obtain ⟨r, -, hrest⟩ := exists_of_bind_eq_ok h
    rcases r with e | ⟨frame, can'⟩
    · cases hrest
      exact .inl rfl
    · obtain ⟨data, -, hrest⟩ := exists_of_bind_eq_ok hrest
      cases hrest
      exact .inr ⟨_, rfl⟩

/-- A read changes the register of its address and no other bytes, in either mode. -/
theorem changedAt_of_input {address : Address} (h : s.step (.input address) = .ok t) :
    ChangedAt s.state t.state (RefreshesByte address) := by
  cases ha : served address with
  | none =>
    cases (ReadOrderLemmas.step_of_not_served ha).symm.trans h
    exact .refl _ _
  | some r =>
    obtain ⟨access, hok, rfl⟩ := exists_of_map_eq_ok h
    rcases state_of_handleInput ha hok with hsame | ⟨v, hwrite⟩
    · exact hsame ▸ .refl _ _
    · exact hwrite ▸ changedAt_write s.state ha v

/-- A write of the firmware that goes on changes no memory: one that asks for a frame
panics before it clears its bit. -/
theorem state_of_output {address : Address} {value : List UInt8}
    (h : s.step (.output address value) = .ok t) : t.state = s.state := by
  obtain ⟨access, hok, rfl⟩ := exists_of_map_eq_ok h
  unfold handleOutput at hok
  split_ifs at hok
  · cases hok
    rfl
  · cases hok
    rfl
  · cases value with
    | nil => cases hok
    | cons tmcValue rest =>
      by_cases hbit : tmcValue &&& 0x01 ≠ 0
      · rw [TransmitLemmas.outputTmc0_panics _ _ rest hbit] at hok
        cases hok
      · simp only [outputTmc0, hbit, if_false] at hok
        cases hok
        rfl
  · unfold outputRfpctr0 at hok
    split at hok
    · cases hok
    · cases hok
      rfl
  · cases hok
    rfl

end FootprintLemmas

/-! ## Runs of the threads -/

/-- The event is a computation of the firmware. -/
def isExecute : Polling.Event CanOperation O → Prop
  | .execute _ => True
  | _ => False

/-- The byte belongs to a register that the thread has read in the run. -/
def Refreshed (i : κ) (tr : List (Threads κ (RSCan api) O × ThreadEvent κ O)) (x : Address) :
    Prop :=
  ∃ q address size, (q, .act i (.read address size)) ∈ tr ∧ RefreshesByte address x

namespace FootprintLemmas

/-- What a step of a thread may change. -/
theorem changedAt_of_step {can : RSCan api} {state : PCodeState O} {t : System api O}
    {e : Polling.Event CanOperation O} (hexecute : ¬ isExecute e)
    (h : (⟨can, state⟩ : System api O).step (toEvent e) = .ok t) :
    ChangedAt state t.state fun x => ∃ address size, e = .read address size ∧
      RefreshesByte address x := by
  cases e with
  | read address size =>
    exact (changedAt_of_input h).mono fun x hx => ⟨address, size, rfl, hx⟩
  | write address size value => exact state_of_output h ▸ .refl _ _
  | operate operation =>
    cases operation with
    | enqueue canId data =>
      obtain ⟨r, -, rfl⟩ := exists_of_map_eq_ok h
      exact .refl _ _
    | dequeue | clear =>
      cases h
      exact .refl _ _
  | execute state => exact absurd trivial hexecute

/-- A peripheral is behind the lock, or a panic was. -/
def Hooked (w : Threads κ (RSCan api) O) : Prop :=
  (∃ can, w.shared = hooked can) ∨ w.shared.peripheral = .poisoned

variable {q r : Threads κ (RSCan api) O}

theorem hooked_of_step {x : ThreadEvent κ O} (hq : Hooked q)
    (h : Step (Act (CanOperation.apply O)) q x r) : Hooked r := by
  rcases hq with ⟨can, hshared⟩ | hpoisoned
  · cases x with
    | act i e =>
      obtain ⟨state, -, ⟨s, -, hr, -⟩ | ⟨-, hr, -⟩⟩ := ClonesLemmas.step_cases hshared h
      · exact .inl ⟨s.can, hr⟩
      · exact .inr hr
    | clone i j =>
      cases h with
      | clone _ _ hsame _ _ => exact .inl ⟨can, hsame.trans hshared⟩
  · refine .inr ?_
    rw [Polling.step_peripheral h, hpoisoned, Polling.Mutex.foldl_enter_poisoned]

/-- What a step of a thread may change of its memory, also when the lock is poisoned. -/
theorem changedAt_of_act (hq : Hooked q) {i : κ} {e : Polling.Event CanOperation O}
    (hexecute : ¬ isExecute e) (h : Step (Act (CanOperation.apply O)) q (.act i e) r)
    {state state' : PCodeState O} (hstart : q.own i = some state) (hend : r.own i = some state') :
    ChangedAt state state' fun x => ∃ address size, e = .read address size ∧
      RefreshesByte address x := by
  rcases hq with ⟨can, hshared⟩ | hpoisoned
  · obtain ⟨state₁, hown, ⟨s, hs, -, hr⟩ | ⟨-, -, hr⟩⟩ := ClonesLemmas.step_cases hshared h
    · cases hstart.symm.trans hown
      cases hend.symm.trans hr
      exact changedAt_of_step hexecute hs
    · cases hend.symm.trans hr
  · cases h with
    | act _ _ hact _ =>
      rw [hstart] at hact
      cases hf : e.critical (CanOperation.apply O) q.shared state with
      | none =>
        have hleaves := (Polling.act_of_not_critical hact hf).2
        have hsame : e.leaves state = state := by
          cases e with
          | execute state => exact absurd trivial hexecute
          | read | write | operate => rfl
        rw [hend, hsame] at hleaves
        cases hleaves
        exact .refl _ _
      | some f =>
        -- behind a poisoned lock the thread would have panicked
        obtain ⟨hr, hnone⟩ := Polling.act_of_critical hact hf
        have hpoison : r.shared.peripheral = .poisoned := by
          rw [hr, hpoisoned]
          rfl
        cases hend.symm.trans (hnone.mpr hpoison)

end FootprintLemmas

open FootprintLemmas

/-- Whatever the threads do, in either mode: the memory of an emulator that has not computed
anything is as it was but for the registers that its own firmware has read, and its other
spaces and its program counter are as they were. -/
theorem memory_of_run {s t : Threads κ (RSCan api) O}
    {tr : List (Threads κ (RSCan api) O × ThreadEvent κ O)}
    (h : Run (Step (Act (CanOperation.apply O))) s tr t) {can : RSCan api}
    (hs : s.shared = hooked can) {i : κ} {state state' : PCodeState O}
    (hstart : s.own i = some state) (hend : t.own i = some state')
    (hquiet : ∀ q e, (q, .act i e) ∈ tr → ¬ isExecute e)
    (hkeep : ∀ q x, (q, x) ∈ tr → ¬ x.replaces i) :
    ChangedAt state state' (Refreshed i tr) := by
  -- the state is that before the run, and the registers are those read in all of it
  let Inv (w : Threads κ (RSCan api) O) : Prop :=
    Hooked w ∧ ∀ state', w.own i = some state' → ChangedAt state state' (Refreshed i tr)
  have hbase : Inv s := by
    refine ⟨.inl ⟨can, hs⟩, fun state₁ hstate₁ => ?_⟩
    cases hstart.symm.trans hstate₁
    exact .refl _ _
  refine (h.invariant_mem Inv hbase fun q x r hm ⟨hq, hchanged⟩ hstep => ?_).1.2 state' hend
  refine ⟨hooked_of_step hq hstep, fun state₁ hstate₁ => ?_⟩
  by_cases hx : x.touches i
  · cases x with
    | clone j k => exact absurd hx (hkeep q _ hm)
    | act j e =>
      cases hx
      have hstate₀ : ∃ state₀, q.own i = some state₀ := by
        cases hstep with
        | act _ _ hact _ => exact ⟨hact.choose, hact.choose_spec.1⟩
      obtain ⟨state₀, hstate₀⟩ := hstate₀
      refine (hchanged state₀ hstate₀).trans ?_
      refine (changedAt_of_act hq (hquiet q e hm) hstep hstate₀ hstate₁).mono ?_
      rintro x ⟨address, size, rfl, hrefreshes⟩
      exact ⟨q, address, size, hm, hrefreshes⟩
  · rw [hstep.own_eq hx] at hstate₁
    exact hchanged state₁ hstate₁

/-- Of the memory of the reading thread the handover of a message leaves all but the registers
that it has read. -/
theorem memory_of_run_handover :
    ChangedAt (afterReads 0 true) (afterReads 2 true) (Refreshed true handover) :=
  memory_of_run ClonesLemmas.run_handover rfl rfl rfl
    (fun q e hm => by
      have hevent : e = .read Reg.rfid0.addr 4 ∨ e = .read Reg.rfdf00.addr 4 := by
        simpa [handover, twoSubmitted, firstReleased] using List.mem_map_of_mem (f := Prod.snd) hm
      rcases hevent with rfl | rfl
      · exact fun hexecute => hexecute
      · exact fun hexecute => hexecute)
    (fun q x hm => by
      have hevents : ∀ y ∈ handover.map Prod.snd, ¬ y.replaces true := by
        simp [handover, twoSubmitted, firstReleased, Interleaving.Event.replaces]
      exact hevents x (List.mem_map_of_mem hm))

end FuguexPeripheral.V850
