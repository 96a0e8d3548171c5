import FuguexPeripheral.Interleaving
import FuguexPeripheral.Polling.Handler

/-!
# Polling peripherals in memory

Model of `src/polling/memory.rs`: a hook that hands the accesses to an address range to a
handler. The handler is behind an `Arc<Mutex>`, so the clones of a hook share it, and
`peripheral()` gives it to the user of the emulator.

* No method changes the address range, so clones of one hook are one value here; what they
  share and what is their own is the `World` of `Interleaving`.
* A panic of the handler poisons the mutex: `lock().unwrap()` panics from then on. What the
  handler has become by then is out of reach, and left out.

Results:
1. `serve_*`: an access outside the range, in it, and in it behind a poisoned lock.
2. `act_of_critical`, `act_of_not_critical`: what a step does to the lock and to its thread.
3. `run_peripheral`, `exists_free_of_run`: the lock over runs.
4. `run_filter`: the accesses outside the range can be left out of a run.
5. `critical_sections`: interleaved threads act on the handler one after another.
-/

namespace FuguexPeripheral.Polling

open ByteStore Runs Interleaving

/-! ## The hook -/

/-- The value of an `Arc<Mutex>`. -/
inductive Mutex (P : Type)
  | free (peripheral : P)
  | poisoned

inductive Panic (π : Type)
  /-- `lock().unwrap()` of a poisoned mutex. -/
  | poison
  /-- The handler panics, and the lock is held. -/
  | handler (panic : π)
  /-- `init(..).unwrap()` of an error. -/
  | unwrapErr (e : Error)

inductive HookAction
  | pass
  deriving DecidableEq, Repr

/-- The error of the emulator's state, of which the source uses one. -/
inductive PCodeError
  | unsupportedAddressSize (size : Nat)
  deriving DecidableEq, Repr

inductive HookError
  | hook (e : PCodeError)
  deriving DecidableEq, Repr

/-- `From<polling::Error> for HookError<PCodeError>`. -/
def Error.toHookError (_ : Error) : HookError :=
  .hook (.unsupportedAddressSize 0)

structure MemoryPollingPeripheral (P : Type) where
  addressRange : Address × Address
  peripheral : Mutex P

/-- What a hook that does not panic leaves behind, and what it returns. -/
structure Returned (P : Type) (O : Order) where
  hook : MemoryPollingPeripheral P
  state : PCodeState O
  outcome : Except HookError HookAction

variable {P π Op : Type} {O : Order}

namespace MemoryPollingPeripheral

/-- Both ends belong to the range. -/
def covers (hook : MemoryPollingPeripheral P) (address : Address) : Bool :=
  hook.addressRange.1 ≤ address && address ≤ hook.addressRange.2

/-- Both memory hooks: lock the handler for an access in the range, and return its error. -/
def serve (hook : MemoryPollingPeripheral P) (state : PCodeState O) (address : Address)
    (call : P → Except π (Handled P O)) : Except (Panic π) (Returned P O) :=
  if hook.covers address then
    match hook.peripheral with
    | .poisoned => .error .poison
    | .free p =>
      match call p with
      | .error panic => .error (.handler panic)
      | .ok r => .ok
          { hook := { hook with peripheral := .free r.peripheral }
            state := r.state
            outcome := (r.result.mapError Error.toHookError).map fun _ => .pass }
  else .ok ⟨hook, state, .ok .pass⟩

variable [PollingPeripheralHandler P O π]

def hookMemoryRead (hook : MemoryPollingPeripheral P) (state : PCodeState O) (address : Address)
    (size : Nat) : Except (Panic π) (Returned P O) :=
  hook.serve state address fun p =>
    PollingPeripheralHandler.handleInput p state address size

def hookMemoryWrite (hook : MemoryPollingPeripheral P) (state : PCodeState O) (address : Address)
    (size : Nat) (value : List UInt8) : Except (Panic π) (Returned P O) :=
  hook.serve state address fun p =>
    PollingPeripheralHandler.handleOutput p state address value size

end MemoryPollingPeripheral

structure MemoryPollingPeripheralBuilder (P : Type) where
  peripheral : P
  addressRange : Address × Address

namespace MemoryPollingPeripheralBuilder

/-- `new`: the handler is initialised, and the state with it. -/
def new [PollingPeripheralHandler P O π] (peripheralIn : P) (muexeState : PCodeState O)
    (addressRange : Address × Address) :
    Except (Panic π) (MemoryPollingPeripheralBuilder P × PCodeState O) :=
  match PollingPeripheralHandler.init peripheralIn muexeState with
  | .error panic => .error (.handler panic)
  | .ok r =>
    match r.result with
    | .error e => .error (.unwrapErr e)
    | .ok () => .ok (⟨r.peripheral, addressRange⟩, r.state)

/-- `peripheral`: the handler is replaced, and not initialised. -/
def withPeripheral (builder : MemoryPollingPeripheralBuilder P) (peripheral : P) :
    MemoryPollingPeripheralBuilder P :=
  { builder with peripheral := peripheral }

def build (builder : MemoryPollingPeripheralBuilder P) : MemoryPollingPeripheral P :=
  ⟨builder.addressRange, .free builder.peripheral⟩

end MemoryPollingPeripheralBuilder

/-! ## Threads -/

/-- What happens in a thread that runs an emulator with a clone of the hook. -/
inductive Event (Op : Type) (O : Order)
  | read (address : Address) (size : Nat)
  | write (address : Address) (size : Nat) (value : List UInt8)
  /-- The user of the emulator locks what `peripheral()` returns, and operates on it. -/
  | operate (operation : Op)
  /-- The firmware computes, and leaves any state. -/
  | execute (state : PCodeState O)

/-- What a thread locks the handler for, if it does. -/
def Event.critical [PollingPeripheralHandler P O π] (operate : P → Op → Except π P)
    (hook : MemoryPollingPeripheral P) (state : PCodeState O) :
    Event Op O → Option (P → Except π P)
  | .read address size =>
    if hook.covers address then
      some fun p => (PollingPeripheralHandler.handleInput p state address size).map
        Handled.peripheral
    else none
  | .write address size value =>
    if hook.covers address then
      some fun p => (PollingPeripheralHandler.handleOutput p state address value size).map
        Handled.peripheral
    else none
  | .operate operation => some fun p => operate p operation
  | .execute _ => none

/-- The user's operation on the handler behind the lock. -/
def MemoryPollingPeripheral.operate (operate : P → Op → Except π P)
    (hook : MemoryPollingPeripheral P) (state : PCodeState O) (operation : Op) :
    Except (Panic π) (Returned P O) :=
  match hook.peripheral with
  | .poisoned => .error .poison
  | .free p =>
    match operate p operation with
    | .error panic => .error (.handler panic)
    | .ok p => .ok ⟨{ hook with peripheral := .free p }, state, .ok .pass⟩

/-- What the event comes to. -/
def Event.apply [PollingPeripheralHandler P O π] (operate : P → Op → Except π P)
    (hook : MemoryPollingPeripheral P) (state : PCodeState O) :
    Event Op O → Except (Panic π) (Returned P O)
  | .read address size => hook.hookMemoryRead state address size
  | .write address size value => hook.hookMemoryWrite state address size value
  | .operate operation => hook.operate operate state operation
  | .execute state => .ok ⟨hook, state, .ok .pass⟩

/-- A step of a thread, which is `none` once it has panicked. A panic while the lock is held
poisons it, and one at a poisoned lock leaves it poisoned. -/
def Act [PollingPeripheralHandler P O π] (operate : P → Op → Except π P)
    (hook : MemoryPollingPeripheral P) (thread : Option (PCodeState O)) (e : Event Op O)
    (hook' : MemoryPollingPeripheral P) (thread' : Option (PCodeState O)) : Prop :=
  ∃ state, thread = some state ∧
    ((∃ r, e.apply operate hook state = .ok r ∧ hook' = r.hook ∧ thread' = some r.state) ∨
      ((∃ panic, e.apply operate hook state = .error panic) ∧
        hook' = { hook with peripheral := .poisoned } ∧ thread' = none))

/-- Threads whose emulators share a handler. -/
abbrev Threads (κ P : Type) (O : Order) :=
  World κ (MemoryPollingPeripheral P) (Option (PCodeState O))

/-! ## One access -/

namespace MemoryPollingPeripheral

variable {hook : MemoryPollingPeripheral P} {state : PCodeState O} {address : Address}
  {call : P → Except π (Handled P O)}

theorem covers_iff : hook.covers address = true ↔
    hook.addressRange.1 ≤ address ∧ address ≤ hook.addressRange.2 := by
  rw [covers, Bool.and_eq_true, decide_eq_true_iff, decide_eq_true_iff]

theorem serve_of_not_covers (h : hook.covers address = false) :
    hook.serve state address call = .ok ⟨hook, state, .ok .pass⟩ := by
  simp [serve, h]

theorem serve_of_poisoned (h : hook.covers address = true) (hp : hook.peripheral = .poisoned) :
    hook.serve state address call = .error .poison := by
  simp [serve, h, hp]

theorem serve_of_panic (h : hook.covers address = true) {p : P} (hp : hook.peripheral = .free p)
    {panic : π} (hcall : call p = .error panic) :
    hook.serve state address call = .error (.handler panic) := by
  simp [serve, h, hp, hcall]

/-- An error of the handler is returned, as the one error that there is, and what the handler
did before is kept. -/
theorem serve_of_ok (h : hook.covers address = true) {p : P} (hp : hook.peripheral = .free p)
    {r : Handled P O} (hcall : call p = .ok r) :
    hook.serve state address call = .ok
      { hook := { hook with peripheral := .free r.peripheral }
        state := r.state
        outcome := (r.result.mapError Error.toHookError).map fun _ => .pass } := by
  simp [serve, h, hp, hcall]

end MemoryPollingPeripheral

/-! ## The lock -/

/-- Lock the value and change it. -/
def Mutex.enter : Mutex P → (P → Except π P) → Mutex P
  | .poisoned, _ => .poisoned
  | .free p, f =>
    match f p with
    | .ok p => .free p
    | .error _ => .poisoned

/-- What a computation that may panic leaves in a mutex. -/
def Mutex.ofExcept : Except π P → Mutex P
  | .ok p => .free p
  | .error _ => .poisoned

theorem Mutex.foldl_enter_poisoned (sections : List (P → Except π P)) :
    sections.foldl Mutex.enter .poisoned = (.poisoned : Mutex P) := by
  induction sections with
  | nil => rfl
  | cons f sections ih => exact ih

/-- Sections that run one after another, until one panics. -/
theorem Mutex.foldl_enter (sections : List (P → Except π P)) (p : P) :
    sections.foldl Mutex.enter (.free p) =
      Mutex.ofExcept (sections.foldlM (fun p f => f p) p) := by
  induction sections generalizing p with
  | nil => rfl
  | cons f sections ih =>
    rw [List.foldl_cons, List.foldlM_cons, Mutex.enter]
    cases hf : f p with
    | ok p' => exact ih p'
    | error panic => exact Mutex.foldl_enter_poisoned sections

section Entered

variable {operate : P → Op → Except π P} {hook : MemoryPollingPeripheral P} {state : PCodeState O}

/-- What comes of locking the handler for `f`: it returns and leaves the lock free, or it panics
and leaves it poisoned. -/
def Entered (hook : MemoryPollingPeripheral P) (f : P → Except π P)
    (outcome : Except (Panic π) (Returned P O)) : Prop :=
  (∃ r, outcome = .ok r ∧ r.hook = { hook with peripheral := hook.peripheral.enter f } ∧
    r.hook.peripheral ≠ .poisoned) ∨
  ((∃ panic, outcome = .error panic) ∧ hook.peripheral.enter f = .poisoned)

theorem entered_serve {address : Address} (call : P → Except π (Handled P O))
    (hcovers : hook.covers address = true) :
    Entered hook (fun p => (call p).map Handled.peripheral) (hook.serve state address call) := by
  cases hp : hook.peripheral with
  | poisoned =>
    exact .inr ⟨⟨_, MemoryPollingPeripheral.serve_of_poisoned hcovers hp⟩, by rw [hp]; rfl⟩
  | free p =>
    cases hcall : call p with
    | error panic =>
      refine .inr ⟨⟨_, MemoryPollingPeripheral.serve_of_panic hcovers hp hcall⟩, ?_⟩
      simp [Mutex.enter, hp, hcall, Except.map]
    | ok r =>
      refine .inl ⟨_, MemoryPollingPeripheral.serve_of_ok hcovers hp hcall, ?_, ?_⟩
      · simp [Mutex.enter, hp, hcall, Except.map]
      · simp

theorem entered_operate (operation : Op) :
    Entered hook (fun p => operate p operation) (hook.operate operate state operation) := by
  cases hp : hook.peripheral with
  | poisoned =>
    exact .inr ⟨⟨.poison, by simp [MemoryPollingPeripheral.operate, hp]⟩, by rw [hp]; rfl⟩
  | free p =>
    cases hop : operate p operation with
    | error panic =>
      refine .inr ⟨⟨.handler panic, ?_⟩, by simp [Mutex.enter, hp, hop]⟩
      simp [MemoryPollingPeripheral.operate, hp, hop]
    | ok p' =>
      refine .inl ⟨⟨{ hook with peripheral := .free p' }, state, .ok .pass⟩, ?_, ?_, ?_⟩
      · simp [MemoryPollingPeripheral.operate, hp, hop]
      · simp [Mutex.enter, hp, hop]
      · simp

end Entered

section Steps

variable [PollingPeripheralHandler P O π] {operate : P → Op → Except π P}
  {hook hook' : MemoryPollingPeripheral P} {state : PCodeState O}
  {thread' : Option (PCodeState O)} {e : Event Op O}

theorem apply_of_critical {f : P → Except π P} (hf : e.critical operate hook state = some f) :
    Entered hook f (e.apply operate hook state) := by
  cases e with
  | read address size =>
    cases hcovers : hook.covers address with
    | false => simp [Event.critical, hcovers] at hf
    | true =>
      simp only [Event.critical, hcovers, if_true, Option.some.injEq] at hf
      exact hf ▸ entered_serve _ hcovers
  | write address size value =>
    cases hcovers : hook.covers address with
    | false => simp [Event.critical, hcovers] at hf
    | true =>
      simp only [Event.critical, hcovers, if_true, Option.some.injEq] at hf
      exact hf ▸ entered_serve _ hcovers
  | operate operation =>
    cases hf
    exact entered_operate operation
  | execute state => cases hf

/-- The state after an event that does not lock the handler. -/
def Event.leaves (state : PCodeState O) : Event Op O → PCodeState O
  | .execute state => state
  | _ => state

theorem apply_of_not_critical (hf : e.critical operate hook state = none) :
    e.apply operate hook state = .ok ⟨hook, e.leaves state, .ok .pass⟩ := by
  cases e with
  | read address size =>
    refine MemoryPollingPeripheral.serve_of_not_covers (Bool.eq_false_iff.mpr fun hcovers => ?_)
    simp [Event.critical, hcovers] at hf
  | write address size value =>
    refine MemoryPollingPeripheral.serve_of_not_covers (Bool.eq_false_iff.mpr fun hcovers => ?_)
    simp [Event.critical, hcovers] at hf
  | operate operation => cases hf
  | execute state => rfl

/-- A step that does not lock the handler leaves it, and its thread goes on. -/
theorem act_of_not_critical (h : Act operate hook (some state) e hook' thread')
    (hf : e.critical operate hook state = none) :
    hook' = hook ∧ thread' = some (e.leaves state) := by
  obtain ⟨state, heq, h⟩ := h
  cases heq
  rw [apply_of_not_critical hf] at h
  obtain ⟨r, hr, rfl, rfl⟩ | ⟨⟨panic, hpanic⟩, -⟩ := h
  · cases hr
    exact ⟨rfl, rfl⟩
  · cases hpanic

/-- A step that locks the handler ends its thread exactly when it leaves the lock poisoned. -/
theorem act_of_critical (h : Act operate hook (some state) e hook' thread') {f : P → Except π P}
    (hf : e.critical operate hook state = some f) :
    hook' = { hook with peripheral := hook.peripheral.enter f } ∧
      (thread' = none ↔ hook'.peripheral = .poisoned) := by
  obtain ⟨state, heq, h⟩ := h
  cases heq
  obtain ⟨r, hr, hhook, hfree⟩ | ⟨⟨panic, hpanic⟩, hpoison⟩ := apply_of_critical hf
  · obtain ⟨r', hr', rfl, rfl⟩ | ⟨⟨panic, hpanic⟩, -⟩ := h
    · cases hr.symm.trans hr'
      exact ⟨hhook, by simp [hfree]⟩
    · cases hr.symm.trans hpanic
  · obtain ⟨r', hr', -⟩ | ⟨-, rfl, rfl⟩ := h
    · cases hpanic.symm.trans hr'
    · exact ⟨by rw [hpoison], by simp⟩

end Steps

/-! ## Runs -/

section Runs

variable {κ : Type} [PollingPeripheralHandler P O π] {operate : P → Op → Except π P}

/-- What a step locks the handler for, if it does. -/
def critical (operate : P → Op → Except π P) (q : Threads κ P O) :
    Interleaving.Event κ (Event Op O) → Option (P → Except π P)
  | .act i e => (q.own i).bind (e.critical operate q.shared)
  | .clone _ _ => none

/-- The critical sections of a run, in order. -/
def sections (operate : P → Op → Except π P)
    (tr : List (Threads κ P O × Interleaving.Event κ (Event Op O))) : List (P → Except π P) :=
  tr.filterMap fun x => critical operate x.1 x.2

/-- An access outside the range. -/
def Event.outside (hook : MemoryPollingPeripheral P) : Event Op O → Bool
  | .read address _ => !hook.covers address
  | .write address _ _ => !hook.covers address
  | _ => false

/-- A step that is no access outside the range. -/
def relevant (q : Threads κ P O) : Interleaving.Event κ (Event Op O) → Bool
  | .act _ e => !e.outside q.shared
  | .clone _ _ => true

variable {s t q r : Threads κ P O} {tr : List (Threads κ P O × Interleaving.Event κ (Event Op O))}
  {x : Interleaving.Event κ (Event Op O)}

theorem step_peripheral (h : Step (Act operate) q x r) :
    r.shared.peripheral =
      (critical operate q x).toList.foldl Mutex.enter q.shared.peripheral := by
  cases h with
  | act i e hact _ =>
    obtain ⟨state, hown, hact'⟩ := hact
    have hact : Act operate q.shared (some state) e r.shared (r.own i) := ⟨state, rfl, hact'⟩
    cases hf : e.critical operate q.shared state with
    | none => simp [critical, hown, hf, (act_of_not_critical hact hf).1]
    | some f => simp [critical, hown, hf, (act_of_critical hact hf).1]
  | clone i j hshared _ _ => simp [critical, hshared]

theorem run_peripheral (h : Run (Step (Act operate)) s tr t) :
    t.shared.peripheral = (sections operate tr).foldl Mutex.enter s.shared.peripheral := by
  induction h with
  | nil s => rfl
  | @cons s r t x tr hstep _ ih =>
    rw [ih, step_peripheral hstep]
    cases hf : critical operate s x <;> simp [sections, hf]

/-- The accesses outside the range can be left out of a run, also after a panic. -/
theorem run_filter (h : Run (Step (Act operate)) s tr t) :
    Run (Step (Act operate)) s (tr.filter fun x => relevant x.1 x.2) t := by
  refine h.filter relevant fun q x r hskip hstep => ?_
  cases hstep with
  | clone i j hshared _ _ => cases hskip
  | act i e hact hothers =>
    obtain ⟨state, hown, hact'⟩ := hact
    have hact : Act operate q.shared (some state) e r.shared (r.own i) := ⟨state, rfl, hact'⟩
    have houtside : e.outside q.shared = true := by simpa [relevant] using hskip
    have hnone : e.critical operate q.shared state = none ∧ e.leaves state = state := by
      cases e with
      | read | write => simpa [Event.outside, Event.critical, Event.leaves] using houtside
      | operate | execute => cases houtside
    obtain ⟨hshared, hthread⟩ := act_of_not_critical hact hnone.1
    rw [hnone.2, ← hown] at hthread
    -- the step has changed nothing, so the rest of the run starts where it did
    have hownr : r.own = q.own := by
      funext k
      by_cases hk : k = i
      · rw [hk, hthread]
      · exact hothers k hk
    cases q
    cases r
    cases hshared
    cases hownr
    rfl

/-- A lock that is free at the end of a run was free at its start. -/
theorem exists_free_of_run (h : Run (Step (Act operate)) s tr t) {p : P}
    (ht : t.shared.peripheral = .free p) : ∃ p, s.shared.peripheral = .free p := by
  cases hs : s.shared.peripheral with
  | free p => exact ⟨p, rfl⟩
  | poisoned =>
    have hlock := run_peripheral h
    rw [hs, Mutex.foldl_enter_poisoned, ht] at hlock
    cases hlock

/-- However the threads interleave, the handler is as their critical sections leave it, one
after another, until one panics, and the accesses outside the range can be left out. A thread
that locks the handler next gets out of the lock exactly when no section panicked before, and
its own does not. -/
theorem critical_sections (h : Run (Step (Act operate)) s tr t) {p : P}
    (hs : s.shared.peripheral = .free p) :
    t.shared.peripheral =
        Mutex.ofExcept ((sections operate tr).foldlM (fun p f => f p) p) ∧
      Run (Step (Act operate)) s (tr.filter fun x => relevant x.1 x.2) t ∧
      ∀ i e w, Step (Act operate) t (.act i e) w → ∀ f, critical operate t (.act i e) = some f →
        (w.own i ≠ none ↔
          ∃ p', (sections operate tr ++ [f]).foldlM (fun p f => f p) p = .ok p') := by
  have hlock := run_peripheral h
  rw [hs] at hlock
  refine ⟨hlock.trans (Mutex.foldl_enter _ _), run_filter h, fun i e w hstep f hf => ?_⟩
  have hthread : w.own i = none ↔ w.shared.peripheral = .poisoned := by
    cases hstep with
    | act _ _ hact _ =>
      obtain ⟨state, hown, hact'⟩ := hact
      simp only [critical, hown, Option.bind_some] at hf
      exact (act_of_critical ⟨state, rfl, hact'⟩ hf).2
  have hnext : w.shared.peripheral =
      Mutex.ofExcept ((sections operate tr ++ [f]).foldlM (fun p f => f p) p) := by
    rw [step_peripheral hstep, hf, hlock, ← Mutex.foldl_enter, List.foldl_append]
    rfl
  rw [ne_eq, hthread, hnext]
  cases (sections operate tr ++ [f]).foldlM (fun p f => f p) p <;> simp [Mutex.ofExcept]

end Runs

end FuguexPeripheral.Polling
