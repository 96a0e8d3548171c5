import FuguexPeripheral.Bypass.Session

/-!
# What ends a session

Two arms of the hook decide by one comparison of addresses whether a session goes on. A store
ends it at the loaded address itself. A branch whose destination is no address counts as one
to offset 0, which is never above the load.

Results:
1. `endsOnOverlap_iff`: the stores over the polled location that end the session.
2. `not_ignoresBranch`: a branch inside an instruction always ends it.
-/

namespace FuguexPeripheral.DummyPeripheral

open ByteStore Runs SessionLemmas

variable {X : SymExprApi} {O : Order} {env : SolverEnv X} {h h' : DummyPeripheral X}
  {s s' : PCodeState O}

/-! ## Stores over the polled location -/

/-- The `n` bytes from `b` on and the `m` bytes from `a` on have one in common. -/
def Overlaps (a m b n : Nat) : Prop :=
  ∃ x, a ≤ x ∧ x < a + m ∧ b ≤ x ∧ x < b + n

/-- If the store writes one of the bytes that were loaded, no session is open after it. -/
def EndsOnOverlap (env : SolverEnv X) (h : DummyPeripheral X) (s : PCodeState O)
    (source destination : Operand) : Prop :=
  Overlaps h.lastMemReadEvent.readAddress h.lastMemReadEvent.size (s.getAddress destination)
      source.size →
    ∃ h' s', h.hookOperationStep env s (.store source destination) = .ok (h', s') ∧
      h'.solvingStarted = false

namespace SessionEndLemmas

/-- A store to the address of the load ends the session. -/
theorem stops_of_store (source : Operand) {destination : Operand}
    (heq : s.getAddress destination = h.lastMemReadEvent.readAddress) :
    h.hookOperationStep env s (.store source destination) =
      .ok ({ h.stop with pcodeCounter := h.pcodeCounter + 1 }, s) := by
  have harm : h.onOperation env s (.store source destination) = .ok (h.stop, s) := by
    rw [onOperation, onStore, if_pos heq.symm]
  exact hookOperationStep_untracked harm rfl

/-- No other store does. -/
theorem open_of_store {source destination : Operand} (hopen : h.solvingStarted = true)
    (hne : s.getAddress destination ≠ h.lastMemReadEvent.readAddress)
    (hstep : h.hookOperationStep env s (.store source destination) = .ok (h', s')) :
    h'.solvingStarted = true := by
  obtain ⟨h₁, solver, harm, -, rfl⟩ := hookOperationStep_cases hstep
  rw [onOperation, onStore, if_neg hne.symm] at harm
  cases harm
  exact hopen

end SessionEndLemmas

open SessionEndLemmas

/-- Of the stores over the polled location those to its first byte end the session. -/
theorem endsOnOverlap_iff (hopen : h.solvingStarted = true) (source destination : Operand) :
    EndsOnOverlap env h s source destination ↔
      (Overlaps h.lastMemReadEvent.readAddress h.lastMemReadEvent.size
        (s.getAddress destination) source.size →
        s.getAddress destination = h.lastMemReadEvent.readAddress) := by
  constructor
  · intro hends hoverlaps
    obtain ⟨h', s', hstep, hclosed⟩ := hends hoverlaps
    by_contra hne
    exact absurd ((open_of_store hopen hne hstep).symm.trans hclosed) (by decide)
  · intro heq hoverlaps
    exact ⟨_, _, stops_of_store source (heq hoverlaps), rfl⟩

namespace SessionEndLemmas

/-- A session for a load of four bytes from 0x100. -/
noncomputable def polling : List (DummyPeripheral termApi × PeripheralEvent .le) ×
    DummyPeripheral termApi :=
  tracePartial (fun h e => PeripheralEvent.apply pollEnv h e) new pollEvents

theorem history_polling : History pollEnv polling.1 polling.2 :=
  run_tracePartial (fun h e => PeripheralEvent.apply pollEnv h e) new pollEvents

theorem polling_started : polling.2.solvingStarted = true := by
  decide +kernel

theorem polling_event : polling.2.lastMemReadEvent = ⟨0x10, 0x100, 4, 0⟩ := by
  decide +kernel

/-- A state whose register holds the address of the second of these bytes. -/
def secondByte : PCodeState .le :=
  ({ spaces := fun _ _ => 0, programCounter := 0x14 } : PCodeState .le).setValue
    pollRegister 0x101

theorem getAddress_secondByte : secondByte.getAddress pollRegister = 0x101 := by
  decide +kernel

end SessionEndLemmas

theorem endsOnOverlap_iff_polling :
    EndsOnOverlap pollEnv polling.2 pollState (.register "r1" 4 4) pollRegister ↔
      (Overlaps polling.2.lastMemReadEvent.readAddress polling.2.lastMemReadEvent.size
        (pollState.getAddress pollRegister) 4 →
        pollState.getAddress pollRegister = polling.2.lastMemReadEvent.readAddress) :=
  endsOnOverlap_iff polling_started (.register "r1" 4 4) pollRegister

/-- A store to the second byte leaves the session open. -/
theorem not_endsOnOverlap_polling : History pollEnv polling.1 polling.2 ∧
    polling.2.solvingStarted = true ∧
    ¬ EndsOnOverlap pollEnv polling.2 secondByte (.register "r1" 4 4) pollRegister := by
  refine ⟨history_polling, polling_started, fun hends => ?_⟩
  have hoverlaps : Overlaps polling.2.lastMemReadEvent.readAddress
      polling.2.lastMemReadEvent.size (secondByte.getAddress pollRegister) 4 := by
    rw [polling_event, getAddress_secondByte]
    exact ⟨0x101, by decide, by decide, by decide, by decide⟩
  have hne : secondByte.getAddress pollRegister ≠ polling.2.lastMemReadEvent.readAddress := by
    rw [polling_event, getAddress_secondByte]
    decide
  obtain ⟨h', s', hstep, hclosed⟩ := hends hoverlaps
  exact absurd ((open_of_store polling_started hne hstep).symm.trans hclosed) (by decide)

/-! ## Branches inside an instruction -/

/-- The destination is the address of an instruction. -/
def isAddress : Operand → Prop
  | .address _ _ => True
  | _ => False

/-- The branch makes no call of the solver, changes neither the emulator state nor the cache,
and leaves the session open. -/
def IgnoresBranch (env : SolverEnv X) (h : DummyPeripheral X) (s : PCodeState O)
    (destination condition : Operand) : Prop :=
  h.solveCall s (.cbranch destination condition) = none ∧
    ∃ h', h.hookOperationStep env s (.cbranch destination condition) = .ok (h', s) ∧
      h'.solvingResults = h.solvingResults ∧ h'.solvingStarted = true

namespace SessionEndLemmas

theorem not_isAddress_constant (value size : Nat) : ¬ isAddress (.constant value size) :=
  fun hdest => hdest

theorem branchOffset_of_not_isAddress {destination : Operand} (hdest : ¬ isAddress destination) :
    destination.branchOffset = 0 := by
  cases destination with
  | address value size => exact absurd trivial hdest
  | constant | register | «variable» => rfl

/-- Offset 0 is never above the load, so the loop is taken for closed. -/
theorem checkLoop_of_not_isAddress (hopen : h.solvingStarted = true) {destination : Operand}
    (hdest : ¬ isAddress destination) (condition : Operand) :
    h.checkLoop s destination condition =
      (h.stop, some ⟨h.solver, condition, h.expectedValue⟩) := by
  have hle : destination.branchOffset ≤ h.lastMemReadEvent.pc := by
    rw [branchOffset_of_not_isAddress hdest]
    exact Nat.zero_le _
  exact checkLoop_closes hopen hle s condition

theorem closed_of_not_isAddress (hopen : h.solvingStarted = true) {destination : Operand}
    (hdest : ¬ isAddress destination) {condition : Operand}
    (hstep : h.hookOperationStep env s (.cbranch destination condition) = .ok (h', s')) :
    h'.solvingStarted = false := by
  obtain ⟨h₁, solver, harm, -, rfl⟩ := hookOperationStep_cases hstep
  refine Bool.eq_false_iff.mpr fun hstill => ?_
  obtain ⟨hnone, -, -⟩ := onCBranch_open harm hstill
  rw [checkLoop_of_not_isAddress hopen hdest] at hnone
  cases hnone

end SessionEndLemmas

/-- A branch inside an instruction is never ignored: whatever the load, the condition and the
rest of the session, the hook calls the solver, and if it returns the session is over. -/
theorem not_ignoresBranch (env : SolverEnv X) (s : PCodeState O) (hopen : h.solvingStarted = true)
    {destination : Operand} (hdest : ¬ isAddress destination) (condition : Operand) :
    h.solveCall s (.cbranch destination condition) =
        some ⟨h.solver, condition, h.expectedValue⟩ ∧
      (∀ h' s', h.hookOperationStep env s (.cbranch destination condition) = .ok (h', s') →
        h'.solvingStarted = false) ∧
      ¬ IgnoresBranch env h s destination condition := by
  have hcall : h.solveCall s (.cbranch destination condition) =
      some ⟨h.solver, condition, h.expectedValue⟩ := by
    rw [solveCall, checkLoop_of_not_isAddress hopen hdest]
  refine ⟨hcall, fun h' s' hstep => closed_of_not_isAddress hopen hdest hstep, ?_⟩
  rintro ⟨hnone, -⟩
  cases hcall.symm.trans hnone

theorem not_ignoresBranch_polling :
    polling.2.solveCall pollState (.cbranch (.constant 2 4) (.constant 1 1)) =
        some ⟨polling.2.solver, .constant 1 1, polling.2.expectedValue⟩ ∧
      (∀ h' s', polling.2.hookOperationStep pollEnv pollState
        (.cbranch (.constant 2 4) (.constant 1 1)) = .ok (h', s') → h'.solvingStarted = false) ∧
      ¬ IgnoresBranch pollEnv polling.2 pollState (.constant 2 4) (.constant 1 1) :=
  not_ignoresBranch pollEnv pollState polling_started (not_isAddress_constant 2 4) (.constant 1 1)

/-- A branch over the next two operations of the same instruction. -/
theorem branch_ends_polling : History pollEnv polling.1 polling.2 ∧
    polling.2.solvingStarted = true ∧
    ¬ IgnoresBranch pollEnv polling.2 pollState (.constant 2 4) (.constant 1 1) := by
  refine ⟨history_polling, polling_started, ?_⟩
  rintro ⟨hnone, -⟩
  rw [solveCall, checkLoop_of_not_isAddress polling_started (not_isAddress_constant 2 4)] at hnone
  cases hnone

end FuguexPeripheral.DummyPeripheral
