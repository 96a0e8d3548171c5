import FuguexPeripheral.Bypass.Steps
import FuguexPeripheral.Bypass.Term

/-!
# Session discipline

When the peripheral calls the solver, the past of the run explains why: there was a
load that opened a session, and nothing since then that a polling loop does not do.

Results:
1. `step_session`: after a step a session is open because the step opened it, or
   because it was open before and the step did not end it.
2. `open_session`: an open session goes back to its load, in every run.
3. `session_discipline`: every call of the solver closes such a session, and the
   emulator state is changed only there and when a load is served from the cache.
-/

namespace FuguexPeripheral

open ByteStore Runs

namespace DummyPeripheral

variable {X : SymExprApi} {O : Order} {env : SolverEnv X} {h h' : DummyPeripheral X}
  {s s' : PCodeState O}

/-- The session that an event opens: an in-range load that misses the cache does. -/
def opened (h : DummyPeripheral X) : PeripheralEvent O → Option MemReadEvent
  | .operation s (.load source destination) =>
    if InRange h.addressRangeList (s.getAddress source) ∧ h.cached (s.getAddress source) = none
    then some ⟨s.programCounter, s.getAddress source, destination.size, h.eventCounter⟩
    else none
  | _ => none

def solves (h : DummyPeripheral X) : PeripheralEvent O → Bool
  | .operation s op => (h.solveCall s op).isSome
  | _ => false

def storesTo (a : Address) : PeripheralEvent O → Bool
  | .operation s (.store _ destination) => s.getAddress destination == a
  | _ => false

/-- A conditional branch to an address above `pc`. -/
def forwardJump (pc : Address) : PeripheralEvent O → Bool
  | .operation _ (.cbranch (.address value _) _) => decide (pc < value)
  | _ => false

/-- The load of `event` is the last one in `tr` that opened a session, and `since` is
what happened after it. -/
def LastOpened (tr : List (DummyPeripheral X × PeripheralEvent O)) (event : MemReadEvent)
    (since : List (DummyPeripheral X × PeripheralEvent O)) : Prop :=
  ∃ earlier q e, tr = earlier ++ (q, e) :: since ∧ q.opened e = some event ∧
    ∀ x ∈ since, x.1.opened x.2 = none

/-- Nothing happened that a polling loop does not do: no solving, no store to the
polled address, and at most one jump forward. -/
structure Undisturbed (event : MemReadEvent)
    (since : List (DummyPeripheral X × PeripheralEvent O)) : Prop where
  noSolve : ∀ x ∈ since, x.1.solves x.2 = false
  noStore : ∀ x ∈ since, storesTo event.readAddress x.2 = false
  jumps : since.countP (fun x => forwardJump event.pc x.2) ≤ 1

/-- An event that leaves an open session open. -/
structure Continues (h : DummyPeripheral X) (e : PeripheralEvent O) (h' : DummyPeripheral X) :
    Prop where
  started : h.solvingStarted = true
  event : h'.lastMemReadEvent = h.lastMemReadEvent
  notOpened : h.opened e = none
  noSolve : h.solves e = false
  noStore : storesTo h.lastMemReadEvent.readAddress e = false
  jump : forwardJump h.lastMemReadEvent.pc e = false ∧ h'.forgiveJump = h.forgiveJump ∨
    forwardJump h.lastMemReadEvent.pc e = true ∧ h'.forgiveJump = h.forgiveJump + 1 ∧
      ¬ h.forgiveJump + 1 > 1

/-! ## One step -/

namespace SessionLemmas

theorem forwardJump_cbranch {pc : Address} {destination condition : Operand} :
    forwardJump pc (.operation s (.cbranch destination condition)) =
      decide (pc < destination.branchOffset) := by
  cases destination with
  | address value size => rfl
  | constant | register | «variable» => rfl

theorem opened_of_not_inRange {source destination : Operand}
    (hin : ¬ InRange h.addressRangeList (s.getAddress source)) :
    h.opened (.operation s (.load source destination)) = none :=
  if_neg fun hand => hin hand.1

/-- A session that is still going on after a call or a return was counted only has another
count. -/
theorem countFunCall_open {change : Int32} (hopen : (h.countFunCall change).solvingStarted = true) :
    h.solvingStarted = true ∧ ∃ n, h.countFunCall change = { h with forgiveFunCall := n } := by
  rcases countFunCall_cases h change with ⟨hnot, heq⟩ | ⟨-, -, heq⟩ | ⟨hstarted, -, heq⟩
  · rw [heq] at hopen
    exact absurd (hopen.symm.trans hnot) (by decide)
  · rw [heq] at hopen
    cases hopen
  · exact ⟨hstarted, _, heq⟩

/-- The arms, one by one. -/
theorem onOperation_session {op : PCodeOp} (harm : h.onOperation env s op = .ok (h', s'))
    (hopen : h'.solvingStarted = true) :
    (∃ event, h.opened (.operation s op) = some event ∧ h'.lastMemReadEvent = event ∧
      h'.forgiveJump = 0) ∨ Continues h (.operation s op) h' := by
  cases op with
  | load source destination =>
    rcases onLoad_cases harm with
      ⟨hin, rfl, rfl⟩ | ⟨hin, r, n, hr, -, rfl, -⟩ | ⟨hin, hmiss, rfl, rfl⟩
    · exact .inr ⟨hopen, rfl, opened_of_not_inRange hin, rfl, rfl, .inl ⟨rfl, rfl⟩⟩
    · have hnot : h'.opened (.operation s (.load source destination)) = none := by
        refine if_neg fun hand => ?_
        rw [hr] at hand
        cases hand.2
      exact .inr ⟨hopen, rfl, hnot, rfl, rfl, .inl ⟨rfl, rfl⟩⟩
    · exact .inl ⟨_, if_pos ⟨hin, hmiss⟩, rfl, rfl⟩
  | store source destination =>
    cases harm
    unfold onStore at hopen ⊢
    split at hopen
    next => cases hopen
    next hne =>
      rw [if_neg hne]
      exact .inr ⟨hopen, rfl, rfl, rfl, beq_false_of_ne (Ne.symm hne), .inl ⟨rfl, rfl⟩⟩
  | cbranch destination condition =>
    obtain ⟨hcall, -, rfl⟩ := onCBranch_open harm hopen
    have hsolve : h.solves (.operation s (.cbranch destination condition)) = false := by
      show (h.checkLoop s destination condition).2.isSome = false
      rw [hcall]
      rfl
    rcases checkLoop_cases h s destination condition with
      ⟨hnot, heq⟩ | ⟨-, -, heq⟩ | ⟨-, -, -, heq⟩ | ⟨hstarted, hlt, hjump, heq⟩
    · rw [heq] at hopen
      exact absurd (hopen.symm.trans hnot) (by decide)
    · rw [heq] at hopen
      cases hopen
    · rw [heq] at hopen
      cases hopen
    · refine .inr ⟨hstarted, ?_, rfl, hsolve, rfl, .inr ⟨?_, ?_, hjump⟩⟩
      · rw [heq]
      · rw [forwardJump_cbranch]
        exact decide_eq_true hlt
      · rw [heq]
  | icall destination =>
    cases harm
    obtain ⟨hstarted, n, heq⟩ := countFunCall_open hopen
    rw [onICall, heq]
    exact .inr ⟨hstarted, rfl, rfl, rfl, rfl, .inl ⟨rfl, rfl⟩⟩
  | ret destination =>
    cases harm
    obtain ⟨hstarted, n, heq⟩ := countFunCall_open hopen
    rw [onReturn, heq]
    exact .inr ⟨hstarted, rfl, rfl, rfl, rfl, .inl ⟨rfl, rfl⟩⟩
  | copy | branch | ibranch | call | subpiece | binary | unary | skip | other =>
    cases harm
    exact .inr ⟨hopen, rfl, rfl, rfl, rfl, .inl ⟨rfl, rfl⟩⟩

end SessionLemmas

open SessionLemmas

/-- After an event a session is open because the event opened it, or because it was
open before and goes on. -/
theorem step_session {e : PeripheralEvent O} (hstep : Step env h e h')
    (hopen : h'.solvingStarted = true) :
    (∃ event, h.opened e = some event ∧ h'.lastMemReadEvent = event ∧ h'.forgiveJump = 0) ∨
      Continues h e h' := by
  cases e with
  | operation s op =>
    obtain ⟨s', hstep⟩ := step_operation hstep
    obtain ⟨h₁, solver, harm, -, rfl⟩ := hookOperationStep_cases hstep
    rcases onOperation_session harm hopen with hopened | hcont
    · exact .inl hopened
    · exact .inr ⟨hcont.started, hcont.event, hcont.notOpened, hcont.noSolve, hcont.noStore,
        hcont.jump⟩
  | architectural | addAddressRange | enableCache | addDefaultReg =>
    cases hstep
    exact .inr ⟨hopen, rfl, rfl, rfl, rfl, .inl ⟨rfl, rfl⟩⟩

/-! ## Whole runs -/

/-- An open session goes back to the last load that opened one, and the forgiven jumps
are the forward jumps since then. -/
def Explained (tr : List (DummyPeripheral X × PeripheralEvent O)) (h : DummyPeripheral X) :
    Prop :=
  h.solvingStarted = true →
    ∃ since, LastOpened tr h.lastMemReadEvent since ∧
      Undisturbed h.lastMemReadEvent since ∧
      since.countP (fun x => forwardJump h.lastMemReadEvent.pc x.2) = h.forgiveJump.toNat

namespace SessionLemmas

/-- The forgiven jumps are counted by one, and at most one is. -/
theorem forgiveJump_continue {e : PeripheralEvent O} (hcont : Continues h e h')
    (hle : h.forgiveJump.toNat ≤ 1) :
    h'.forgiveJump.toNat = h.forgiveJump.toNat +
      (if forwardJump h.lastMemReadEvent.pc e = true then 1 else 0) ∧
      h'.forgiveJump.toNat ≤ 1 := by
  rcases hcont.jump with ⟨hno, heq⟩ | ⟨hyes, heq, hfirst⟩
  · rw [if_neg (by rw [hno]; decide), heq, Nat.add_zero]
    exact ⟨rfl, hle⟩
  · have hlt : h.forgiveJump.toNat + 1 < 2 ^ 32 := by omega
    have hadd : (h.forgiveJump + 1).toNat = h.forgiveJump.toNat + 1 := by
      rw [UInt32.toNat_add]
      exact Nat.mod_eq_of_lt hlt
    rw [if_pos hyes, heq]
    exact ⟨hadd, UInt32.le_iff_toNat_le.mp (UInt32.not_lt.mp hfirst)⟩

end SessionLemmas

theorem open_session {tr : List (DummyPeripheral X × PeripheralEvent O)}
    (hr : History env tr h) : Explained tr h := by
  refine hr.history Explained (by intro hnew; cases hnew) ?_
  intro past q e t _ ih hstep hopen
  rcases step_session hstep hopen with ⟨event, hopened, hevent, hjump⟩ | hcont
  · refine ⟨[], ⟨past, q, e, rfl, ?_, List.forall_mem_nil _⟩,
      ⟨List.forall_mem_nil _, List.forall_mem_nil _, Nat.zero_le 1⟩, ?_⟩
    · rw [hevent]
      exact hopened
    · rw [hjump]
      rfl
  · obtain ⟨since, ⟨earlier, q', e', rfl, hopened, hnone⟩, hund, hcount⟩ := ih hcont.started
    obtain ⟨hjumps, hone⟩ := forgiveJump_continue hcont (hcount ▸ hund.jumps)
    have hcount' : (since ++ [(q, e)]).countP
        (fun x => forwardJump t.lastMemReadEvent.pc x.2) = t.forgiveJump.toNat := by
      rw [hcont.event, List.countP_append, hcount, List.countP_singleton, hjumps]
    refine ⟨since ++ [(q, e)], ⟨earlier, q', e', ?_, ?_, ?_⟩, ⟨?_, ?_, ?_⟩, hcount'⟩
    · rw [List.append_assoc, List.cons_append]
    · rw [hcont.event]
      exact hopened
    · exact List.forall_mem_append.mpr ⟨hnone, List.forall_mem_singleton.mpr hcont.notOpened⟩
    · exact List.forall_mem_append.mpr
        ⟨hund.noSolve, List.forall_mem_singleton.mpr hcont.noSolve⟩
    · rw [hcont.event]
      exact List.forall_mem_append.mpr
        ⟨hund.noStore, List.forall_mem_singleton.mpr hcont.noStore⟩
    · rw [hcount']
      exact hone

/-- A step changes the emulator state only where it solves, or where a load is served
from the cache. -/
theorem state_changes {op : PCodeOp} (hstep : h.hookOperationStep env s op = .ok (h', s')) :
    s' = s ∨ (h.solveCall s op).isSome ∨
      ∃ source destination r, op = .load source destination ∧
        InRange h.addressRangeList (s.getAddress source) ∧
        h.cached (s.getAddress source) = some r := by
  obtain ⟨h₁, solver, harm, -, -⟩ := hookOperationStep_cases hstep
  cases op with
  | load source destination =>
    rcases onLoad_cases harm with ⟨-, -, rfl⟩ | ⟨hin, r, n, hr, -, -, -⟩ | ⟨-, -, -, rfl⟩
    · exact .inl rfl
    · exact .inr (.inr ⟨source, destination, r, rfl, hin, hr⟩)
    · exact .inl rfl
  | cbranch destination condition =>
    rcases onCBranch_cases harm with ⟨-, rfl, -⟩ | ⟨heq, -⟩
    · exact .inl rfl
    · refine .inr (.inl ?_)
      show (h.checkLoop s destination condition).2.isSome = true
      rw [heq]
      rfl
  | store | icall | ret | copy | branch | ibranch | call | subpiece | binary | unary | skip
  | other =>
    cases harm
    exact .inl rfl

/-- **Session discipline.** At the end of every run, if the next step calls the solver,
then the run has a last load that opened a session, undisturbed since, and the step is
a branch that does not go above the program counter of that load. And the next step
changes the emulator state only if it solves, or is a load in range that hits the cache. -/
theorem session_discipline {tr : List (DummyPeripheral X × PeripheralEvent O)}
    (hr : History env tr h) :
    (∀ (s : PCodeState O) op call, h.solveCall s op = some call →
      ∃ event since, LastOpened tr event since ∧ Undisturbed event since ∧
        ∃ destination condition, op = .cbranch destination condition ∧
          destination.branchOffset ≤ event.pc) ∧
    (∀ (s : PCodeState O) op h' s', h.hookOperationStep env s op = .ok (h', s') → s' ≠ s →
      (h.solveCall s op).isSome ∨
      ∃ source destination r, op = .load source destination ∧
        InRange h.addressRangeList (s.getAddress source) ∧
        h.cached (s.getAddress source) = some r) := by
  refine ⟨?_, ?_⟩
  · intro s op call hcall
    cases op with
    | cbranch destination condition =>
      obtain ⟨hstarted, hle, -⟩ := checkLoop_call hcall
      obtain ⟨since, hlast, hund, -⟩ := open_session hr hstarted
      exact ⟨h.lastMemReadEvent, since, hlast, hund, destination, condition, rfl, hle⟩
    | load | store | icall | ret | copy | branch | ibranch | call | subpiece | binary | unary
    | skip | other => cases hcall
  · intro s op h' s' hstep hne
    rcases state_changes hstep with heq | hrest
    · exact absurd heq hne
    · exact hrest

namespace SessionLemmas

/-- A register that holds the address of the polled location. -/
def pollRegister : Operand :=
  .register "r0" 0 4

def pollState : PCodeState .le :=
  ({ spaces := fun _ _ => 0, programCounter := 0x10 } : PCodeState .le).setValue
    pollRegister 0x100

/-- A range, and a load from it. -/
def pollEvents : List (PeripheralEvent .le) :=
  [.addAddressRange (0x100, 0x1ff), .operation pollState (.load pollRegister (.register "r1" 4 4))]

noncomputable def pollEnv : SolverEnv termApi :=
  .preferring termApi fun _ => 0

end SessionLemmas

/-- A load from a range and a branch back to it. -/
theorem session_discipline_poll :
    ∃ call event since,
      (tracePartial (fun h e => PeripheralEvent.apply pollEnv h e) new pollEvents).2.solveCall
        pollState (.cbranch (.address 0x10 4) (.constant 0 1)) = some call ∧
      LastOpened (tracePartial (fun h e => PeripheralEvent.apply pollEnv h e) new pollEvents).1
        event since ∧
      Undisturbed event since := by
  have hrun := run_tracePartial (fun h e => PeripheralEvent.apply pollEnv h e) new pollEvents
  obtain ⟨call, hcall⟩ := Option.isSome_iff_exists.mp
    (show ((tracePartial (fun h e => PeripheralEvent.apply pollEnv h e) new pollEvents).2.solveCall
      pollState (.cbranch (.address 0x10 4) (.constant 0 1))).isSome = true by decide +kernel)
  obtain ⟨event, since, hlast, hund, -⟩ := (session_discipline hrun).1 _ _ _ hcall
  exact ⟨call, event, since, hcall, hlast, hund⟩

end DummyPeripheral

end FuguexPeripheral
