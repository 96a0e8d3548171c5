import FuguexPeripheral.Bypass.Reads
import FuguexPeripheral.Bypass.SessionEnd
import FuguexPeripheral.Bypass.Solutions

/-!
# After a forgiven jump

The first jump forward in a session is forgiven. The hook keeps the concrete value of its
condition, and stops adding operations to the solver. When a later branch closes the loop, the
solver is asked for the opposite of the value that was kept, for the condition of the later
branch.

Results:
1. `readExpr_eq_ok_iff`: what an operand stands for in the tables of the solver.
2. `frozen_step`, `forgiven_of_forgivesFirst`: what a session keeps after the forgiven jump.
3. `asksForFirst_iff`: when the constraint is about the condition of the first branch.
-/

namespace FuguexPeripheral

open ByteStore Runs Variables

variable {X : SymExprApi} {O : Order}

/-! ## The constraint of a call -/

/-- An expression and the value that it is to have. -/
structure Constraint (X : SymExprApi) where
  expr : X.Expr
  value : Nat

/-- The expression that `solve` hands to the value solver. -/
def Constraint.toExpr (constraint : Constraint X) : X.Expr :=
  X.binary .eq constraint.expr (X.val constraint.value (X.bits constraint.expr))

/-- The constraint of a call of `solve` in the state `s`. -/
def SolveCall.constraint (call : SolveCall X) (s : PCodeState O) : Except Panic (Constraint X) :=
  (call.solver.readExpr s call.condition).map fun e => ⟨e, call.expectedValue⟩

/-- Where there is a variable to solve, the value solver gets this constraint. -/
theorem SolveCall.solve_constraint {call : SolveCall X} {s : PCodeState O}
    {constraint : Constraint X} (env : SolverEnv X) (h : call.constraint s = .ok constraint)
    (htargets : call.solver.targets ≠ []) :
    ∃ c', call.solver.solve env s call.condition call.expectedValue =
      .ok (some (ConstraintSolver.solveValues env constraint.toExpr
        (env.varOrder call.solver.targets) env.newIndependent ∅), c') := by
  obtain ⟨e, hread, rfl⟩ := Fallible.exists_of_map_eq_ok h
  obtain ⟨⟨e', c'⟩, hread', rfl⟩ := Fallible.exists_of_map_eq_ok hread
  exact ⟨c', ConstraintSolver.solve_of_read env call.expectedValue hread' htargets⟩

/-! ## What an operand stands for -/

namespace ConstraintSolver

variable {c : ConstraintSolver X} {s : PCodeState O} {o : Operand} {e : X.Expr}

/-- The expression of an operand in the tables of the solver: a constant is itself, a listed
operand has its current version, and another one is captured, with its default value or, for a
register of a word's size, with the byte that it has in the state. -/
inductive StandsFor (c : ConstraintSolver X) (s : PCodeState O) : Operand → X.Expr → Prop
  | constant (value size : Nat) : StandsFor c s (.constant value size) (X.val value (8 * size))
  | listed {o : Operand} {key : String} {v : Variables X} :
      genVariableName o = some key → c.varList key = some v → StandsFor c s o v.getSymExpr
  | captured {o : Operand} {key : String} :
      genVariableName o = some key → c.varList key = none →
      ((c.defaultVariables key).isSome = true ∨ o.isRegister = true ∧
        (o.size = 1 ∨ o.size = 2 ∨ o.size = 4 ∨ o.size = 8)) →
      StandsFor c s o (X.val (c.capturedValue s key o) (8 * o.size))

/-- Only an operand that can be captured is read without being listed. -/
theorem capturable_of_read {key : String} {c' : ConstraintSolver X}
    (hkey : genVariableName o = some key) (hnone : c.varList key = none)
    (hread : c.symexprFromOperandRead s o = .ok (e, c')) :
    (c.defaultVariables key).isSome = true ∨ o.isRegister = true ∧
      (o.size = 1 ∨ o.size = 2 ∨ o.size = 4 ∨ o.size = 8) := by
  cases hdefault : c.defaultVariables key with
  | some value => exact .inl rfl
  | none =>
    rw [symexprFromOperandRead_of_key c s hkey, varListGet] at hread
    rw [hkey] at hread
    dsimp only at hread
    rw [hnone] at hread
    dsimp only at hread
    rw [hdefault] at hread
    cases o with
    | constant | address | «variable» => cases hread
    | register name offset size =>
      by_cases hsize : size = 1 ∨ size = 2 ∨ size = 4 ∨ size = 8
      · exact .inr ⟨rfl, hsize⟩
      · dsimp only at hread
        rw [if_neg hsize] at hread
        cases hread

theorem readExpr_eq_ok_iff : c.readExpr s o = .ok e ↔ c.StandsFor s o e := by
  constructor
  · intro hexpr
    obtain ⟨⟨e', c'⟩, hread, rfl⟩ := Fallible.exists_of_map_eq_ok hexpr
    rcases read_cases hread with ⟨value, size, rfl, rfl, -⟩ |
      ⟨key, hkey, ⟨v, hv, rfl, -⟩ | ⟨hnone, rfl, -⟩⟩
    · exact .constant value size
    · exact .listed hkey hv
    · exact .captured hkey hnone (capturable_of_read hkey hnone hread)
  · intro hstands
    cases hstands with
    | constant value size => rfl
    | listed hkey hv => exact readExpr_listed hkey hv
    | captured hkey hnone hcapturable =>
      obtain ⟨v, hread, hv⟩ := read_capture (s := s) hkey hnone hcapturable
      rw [readExpr_of_read hread, hv]

end ConstraintSolver

namespace DummyPeripheral

open SessionLemmas

variable {env : SolverEnv X} {h h' : DummyPeripheral X} {s : PCodeState O}

/-! ## The session trace -/

/-- An event that neither opens a session nor ends the one that is open. -/
def GoesOn (env : SolverEnv X) (h : DummyPeripheral X) (e : PeripheralEvent O)
    (h' : DummyPeripheral X) : Prop :=
  Step env h e h' ∧ h.opened e = none ∧ h'.solvingStarted = true

/-- Open since the load of `event`, with no jump forgiven. -/
structure Tracked (event : MemReadEvent) (h : DummyPeripheral X) : Prop where
  started : h.solvingStarted = true
  event : h.lastMemReadEvent = event
  jump : h.forgiveJump = 0

/-- Open since the load of `event`, with the jump forgiven that found `solver` and whose
condition was `flag`. -/
structure Forgiven (event : MemReadEvent) (solver : ConstraintSolver X) (flag : UInt8)
    (h : DummyPeripheral X) : Prop where
  started : h.solvingStarted = true
  event : h.lastMemReadEvent = event
  jump : h.forgiveJump = 1
  solver : h.solver = solver
  flag : h.forgiveBranchCondition = flag.toUInt32

namespace ForgivenJumpLemmas

/-- The load that opens the session. -/
theorem tracked_of_opened {e : PeripheralEvent O} {event : MemReadEvent}
    (hopened : h.opened e = some event) (hstep : Step env h e h') : Tracked event h' := by
  cases e with
  | operation s op =>
    cases op with
    | load source destination =>
      obtain ⟨s', hstep⟩ := step_operation hstep
      obtain ⟨h₁, solver, harm, -, rfl⟩ := hookOperationStep_cases hstep
      rw [opened] at hopened
      split_ifs at hopened with hand
      cases (onLoad_miss hand.1 hand.2).symm.trans harm
      cases hopened
      exact ⟨rfl, rfl, rfl⟩
    | store | copy | branch | cbranch | ibranch | call | icall | ret | subpiece | binary | unary
    | skip | other => cases hopened
  | architectural | addAddressRange | enableCache | addDefaultReg => cases hopened

/-- As long as there is no jump forward, none is forgiven. -/
theorem tracked_step {e : PeripheralEvent O} {event : MemReadEvent} (h₀ : Tracked event h)
    (hgoes : GoesOn env h e h') (hjump : forwardJump event.pc e = false) : Tracked event h' := by
  obtain ⟨hstep, hnone, hopen⟩ := hgoes
  rcases step_session hstep hopen with ⟨event', hopened, -, -⟩ | hcont
  · cases hnone.symm.trans hopened
  · refine ⟨hopen, hcont.event.trans h₀.event, ?_⟩
    rcases hcont.jump with ⟨-, hsame⟩ | ⟨hforward, -, -⟩
    · rw [hsame, h₀.jump]
    · rw [h₀.event, hjump] at hforward
      cases hforward

theorem not_tracking (hjump : h.forgiveJump = 1) : h.tracking = false := by
  simp [tracking, hjump]

/-- The first jump forward is forgiven. -/
theorem onOperation_first {event : MemReadEvent} (h₀ : Tracked event h) {value : Nat} (size : Nat)
    (condition : Operand) (habove : event.pc < value) :
    h.onOperation env s (.cbranch (.address value size) condition) =
      .ok ({ h with
          forgiveJump := h.forgiveJump + 1
          forgiveBranchCondition := (s.getOperandU8 condition).toUInt32 }, s) := by
  have hlt : h.lastMemReadEvent.pc < (Operand.address value size).branchOffset := by
    rw [h₀.event]
    exact habove
  have hfirst : ¬ h.forgiveJump + 1 > 1 := by
    rw [h₀.jump]
    decide
  rcases checkLoop_cases h s (.address value size) condition with
    ⟨hnot, -⟩ | ⟨-, hle, -⟩ | ⟨-, -, hsecond, -⟩ | ⟨-, -, -, heq⟩
  · exact absurd (h₀.started.symm.trans hnot) (by decide)
  · exact absurd hlt (Nat.not_lt.mpr hle)
  · exact absurd hsecond hfirst
  · rw [onOperation, onCBranch, heq]

/-- Its condition is kept, and the solver is left as it is. -/
theorem forgiven_of_first {event : MemReadEvent} (h₀ : Tracked event h) {value size : Nat}
    {condition : Operand} (habove : event.pc < value)
    (hstep : Step env h (.operation s (.cbranch (.address value size) condition)) h') :
    Forgiven event h.solver (s.getOperandU8 condition) h' := by
  obtain ⟨s', hstep⟩ := step_operation hstep
  obtain ⟨h₁, solver, harm, hsolver, rfl⟩ := hookOperationStep_cases hstep
  cases (onOperation_first h₀ size condition habove).symm.trans harm
  have hjump : h.forgiveJump + 1 = 1 := by
    rw [h₀.jump]
    rfl
  rcases hsolver with ⟨-, rfl⟩ | ⟨htracking, -⟩
  · exact ⟨h₀.started, h₀.event, hjump, rfl, rfl⟩
  · exact absurd ((not_tracking hjump).symm.trans htracking) (by decide)

/-- The arms keep what is kept, as long as the session goes on. -/
theorem frozen_arm {op : PCodeOp} {s' : PCodeState O} {event : MemReadEvent}
    {solver : ConstraintSolver X} {flag : UInt8} (h₀ : Forgiven event solver flag h)
    (harm : h.onOperation env s op = .ok (h', s')) (hnone : h.opened (.operation s op) = none)
    (hopen : h'.solvingStarted = true) : Forgiven event solver flag h' := by
  cases op with
  | load source destination =>
    rcases onLoad_cases harm with ⟨-, rfl, -⟩ | ⟨-, -, -, -, -, rfl, -⟩ | ⟨hin, hmiss, -, -⟩
    · exact h₀
    · exact h₀
    · rw [opened, if_pos ⟨hin, hmiss⟩] at hnone
      cases hnone
  | store source destination =>
    cases harm
    unfold onStore at hopen ⊢
    split_ifs at hopen ⊢
    · cases hopen
    · exact h₀
  | cbranch destination condition =>
    obtain ⟨hcall, -, rfl⟩ := onCBranch_open harm hopen
    rcases checkLoop_cases h s destination condition with
      ⟨hnot, -⟩ | ⟨-, -, heq⟩ | ⟨-, -, -, heq⟩ | ⟨-, -, hfirst, -⟩
    · exact absurd (h₀.started.symm.trans hnot) (by decide)
    · rw [heq] at hcall
      cases hcall
    · rw [heq] at hopen
      cases hopen
    · rw [h₀.jump] at hfirst
      exact absurd (by decide) hfirst
  | icall destination =>
    cases harm
    obtain ⟨-, n, heq⟩ := countFunCall_open hopen
    rw [onICall, heq]
    exact ⟨h₀.started, h₀.event, h₀.jump, h₀.solver, h₀.flag⟩
  | ret destination =>
    cases harm
    obtain ⟨-, n, heq⟩ := countFunCall_open hopen
    rw [onReturn, heq]
    exact ⟨h₀.started, h₀.event, h₀.jump, h₀.solver, h₀.flag⟩
  | copy | branch | ibranch | call | subpiece | binary | unary | skip | other =>
    cases harm
    exact h₀

/-- From then on a session keeps the solver and the condition to its end. -/
theorem frozen_step {e : PeripheralEvent O} {event : MemReadEvent}
    {solver : ConstraintSolver X} {flag : UInt8} (h₀ : Forgiven event solver flag h)
    (hgoes : GoesOn env h e h') : Forgiven event solver flag h' := by
  obtain ⟨hstep, hnone, hopen⟩ := hgoes
  cases e with
  | operation s op =>
    obtain ⟨s', hstep⟩ := step_operation hstep
    obtain ⟨h₁, solver', harm, hsolver, rfl⟩ := hookOperationStep_cases hstep
    have h₁forgiven := frozen_arm h₀ harm hnone hopen
    rcases hsolver with ⟨-, rfl⟩ | ⟨htracking, -⟩
    · exact ⟨hopen, h₁forgiven.event, h₁forgiven.jump, h₁forgiven.solver, h₁forgiven.flag⟩
    · exact absurd ((not_tracking h₁forgiven.jump).symm.trans htracking) (by decide)
  | architectural | addAddressRange | enableCache | addDefaultReg =>
    cases hstep
    exact ⟨h₀.started, h₀.event, h₀.jump, h₀.solver, h₀.flag⟩

end ForgivenJumpLemmas

open ForgivenJumpLemmas

/-- The load of `event` has opened a session, and since then no jump went above it. -/
def UpToFirst (O : Order) (env : SolverEnv X) (event : MemReadEvent) (h : DummyPeripheral X) :
    Prop :=
  ∃ (h₀ : DummyPeripheral X) (load : PeripheralEvent O) (h₁ : DummyPeripheral X)
    (tr : List (DummyPeripheral X × PeripheralEvent O)),
    h₀.opened load = some event ∧ Step env h₀ load h₁ ∧ Run (GoesOn env) h₁ tr h ∧
      ∀ x ∈ tr, forwardJump event.pc x.2 = false

/-- In the state `s` a branch on `condition` goes above the load, and the session goes on. -/
def ForgivesFirst (env : SolverEnv X) (event : MemReadEvent) (h : DummyPeripheral X)
    (s : PCodeState O) (condition : Operand) (h' : DummyPeripheral X) : Prop :=
  ∃ (value size : Nat) (h₁ : DummyPeripheral X)
    (tr : List (DummyPeripheral X × PeripheralEvent O)),
    event.pc < value ∧ Step env h (.operation s (.cbranch (.address value size) condition)) h₁ ∧
      Run (GoesOn env) h₁ tr h'

/-- The call asks for the opposite of the value that `condition` had in the state `s`, for the
expression that it had in the solver there. -/
def AsksForFirst (solver : ConstraintSolver X) (s : PCodeState O) (condition : Operand)
    (call : SolveCall X) (s' : PCodeState O) : Prop :=
  ∃ e, solver.readExpr s condition = .ok e ∧
    call.constraint s' = .ok ⟨e, if s.value condition = 0 then 1 else 0⟩

namespace ForgivenJumpLemmas

theorem tracked_of_upToFirst {event : MemReadEvent} (h₀ : UpToFirst O env event h) :
    Tracked event h := by
  obtain ⟨q, load, r, tr, hopened, hload, hrun, hjump⟩ := h₀
  refine (hrun.invariant_mem (Tracked event) (tracked_of_opened hopened hload) ?_).1
  exact fun q e r hm hq hgoes => tracked_step hq hgoes (hjump (q, e) hm)

/-- The solver and the condition of the first branch are kept to the end. -/
theorem forgiven_of_forgivesFirst {event : MemReadEvent} {condition : Operand}
    (h₀ : Tracked event h) (hforgives : ForgivesFirst env event h s condition h') :
    Forgiven event h.solver (s.getOperandU8 condition) h' := by
  obtain ⟨value, size, r, tr, habove, hfirst, hrun⟩ := hforgives
  exact hrun.invariant (Forgiven event h.solver (s.getOperandU8 condition))
    (fun q e r hq hgoes => frozen_step hq hgoes) (forgiven_of_first h₀ habove hfirst)

/-- The branch that closes the loop asks the frozen solver about its own condition. -/
theorem solveCall_of_forgiven {event : MemReadEvent} {solver : ConstraintSolver X} {flag : UInt8}
    (h₀ : Forgiven event solver flag h) {value : Nat} (size : Nat) (condition : Operand)
    (hback : value ≤ event.pc) : h.solveCall s (.cbranch (.address value size) condition) =
      some ⟨solver, condition, if flag = 0 then 1 else 0⟩ := by
  have hle : (Operand.address value size).branchOffset ≤ h.lastMemReadEvent.pc := by
    rw [h₀.event]
    exact hback
  have hexpected : h.expectedValue = if flag = 0 then 1 else 0 := by
    have hflag : flag.toUInt32 = 0 ↔ flag = 0 := by
      rw [← UInt32.toNat_inj, ← UInt8.toNat_inj]
      rfl
    rw [expectedValue, h₀.jump, h₀.flag, if_neg (by decide)]
    simp only [hflag]
  rw [solveCall, checkLoop_closes h₀.started hle, h₀.solver, hexpected]

/-- The opposite of a byte is the opposite of a number when they are zero together. -/
theorem opposite_eq_iff {flag : UInt8} {n : Nat} :
    (if flag = 0 then 1 else 0) = (if n = 0 then 1 else 0) ↔ (flag = 0 ↔ n = 0) := by
  split_ifs with hflag hn hn
  · simp [hflag, hn]
  · simp [hflag, hn]
  · simp [hflag, hn]
  · simp [hflag, hn]

end ForgivenJumpLemmas

/-- When a branch to the load or below it closes the loop after a forgiven jump, the solver is
asked about the first branch exactly if the condition of the closing branch stands, in the
solver of the first branch, for the expression that the first condition stood for, and the
byte that was kept of the first condition is zero exactly if the condition was. -/
theorem asksForFirst_iff {event : MemReadEvent} {h h' : DummyPeripheral X} {s s' : PCodeState O}
    {condition : Operand} (htracked : UpToFirst O env event h)
    (hforgives : ForgivesFirst env event h s condition h') {value : Nat} (size : Nat)
    (hback : value ≤ event.pc) (condition' : Operand) :
    ∃ call, h'.solveCall s' (.cbranch (.address value size) condition') = some call ∧
      (AsksForFirst h.solver s condition call s' ↔
        (∃ e, h.solver.StandsFor s condition e ∧ h.solver.StandsFor s' condition' e) ∧
          (s.getOperandU8 condition = 0 ↔ s.value condition = 0)) := by
  have hforgiven := forgiven_of_forgivesFirst (tracked_of_upToFirst htracked) hforgives
  refine ⟨_, solveCall_of_forgiven hforgiven size condition' hback, ?_⟩
  constructor
  · rintro ⟨e, hfirst, hconstraint⟩
    obtain ⟨e', hsecond, heq⟩ := Fallible.exists_of_map_eq_ok hconstraint
    cases (Constraint.mk.inj heq).1
    exact ⟨⟨e, ConstraintSolver.readExpr_eq_ok_iff.mp hfirst,
      ConstraintSolver.readExpr_eq_ok_iff.mp hsecond⟩,
      opposite_eq_iff.mp (Constraint.mk.inj heq).2⟩
  · rintro ⟨⟨e, hfirst, hsecond⟩, hzero⟩
    refine ⟨e, ConstraintSolver.readExpr_eq_ok_iff.mpr hfirst, ?_⟩
    rw [SolveCall.constraint, ConstraintSolver.readExpr_eq_ok_iff.mpr hsecond, Except.map,
      opposite_eq_iff.mpr hzero]

namespace ForgivenJumpLemmas

open SessionEndLemmas

/-- The load that `polling` waits at. -/
def pollEvent : MemReadEvent :=
  ⟨0x10, 0x100, 4, 0⟩

theorem upToFirst_polling : UpToFirst .le pollEnv pollEvent polling.2 := by
  refine ⟨new.addAddressRange (0x100, 0x1ff),
    .operation pollState (.load pollRegister (.register "r1" 4 4)), polling.2, [], ?_, rfl,
    .nil _, fun x hx => absurd hx List.not_mem_nil⟩
  decide +kernel

theorem exists_first {event : MemReadEvent} (h₀ : Tracked event h) (env : SolverEnv X)
    (s : PCodeState O) {value : Nat} (size : Nat) (condition : Operand)
    (habove : event.pc < value) : ∃ h', ForgivesFirst env event h s condition h' := by
  have harm : h.onOperation env s (.cbranch (.address value size) condition) = _ :=
    onOperation_first h₀ size condition habove
  have hstep := hookOperationStep_untracked harm (not_tracking (by
    rw [h₀.jump]
    rfl))
  exact ⟨_, value, size, _, [], habove, congrArg (Except.map Prod.fst) hstep, .nil _⟩

/-- The byte that was loaded. -/
def loadedByte : Operand :=
  .register "r1" 4 1

/-- A byte that has nothing to do with it. -/
def otherByte : Operand :=
  .register "r2" 8 1

end ForgivenJumpLemmas

open SessionEndLemmas

/-- A second branch on the same register: the solver is asked about the first one. -/
theorem asksForFirst_iff_polling : ∃ h', ForgivesFirst pollEnv pollEvent polling.2 pollState
    loadedByte h' ∧
    ∃ call, h'.solveCall pollState (.cbranch (.address 0x10 4) loadedByte) = some call ∧
      AsksForFirst polling.2.solver pollState loadedByte call pollState := by
  have habove : pollEvent.pc < 0x20 := by decide
  obtain ⟨h', hforgives⟩ := exists_first (tracked_of_upToFirst upToFirst_polling) pollEnv
    pollState 4 loadedByte habove
  have hback : 0x10 ≤ pollEvent.pc := by decide
  obtain ⟨call, hcall, hiff⟩ :=
    asksForFirst_iff upToFirst_polling hforgives 4 hback loadedByte
  have hread : polling.2.solver.readExpr pollState loadedByte =
      .ok (Term.extract (Term.ivar ⟨"r0", 32⟩) 0 32 : Term) := rfl
  have hstands := ConstraintSolver.readExpr_eq_ok_iff.mp hread
  have hzero : pollState.getOperandU8 loadedByte = 0 ↔ pollState.value loadedByte = 0 :=
    iff_of_true (by decide) (by decide)
  exact ⟨h', hforgives, call, hcall, hiff.mpr ⟨⟨_, hstands, hstands⟩, hzero⟩⟩

/-- A second branch on another register: the solver is asked about that one. -/
theorem asks_for_second : ∃ h', UpToFirst .le pollEnv pollEvent polling.2 ∧
    ForgivesFirst pollEnv pollEvent polling.2 pollState loadedByte h' ∧
    ∃ call, h'.solveCall pollState (.cbranch (.address 0x10 4) otherByte) = some call ∧
      ¬ AsksForFirst polling.2.solver pollState loadedByte call pollState := by
  have habove : pollEvent.pc < 0x20 := by decide
  have htracked := tracked_of_upToFirst upToFirst_polling
  obtain ⟨h', hforgives⟩ := exists_first htracked pollEnv pollState 4 loadedByte habove
  have hforgiven := forgiven_of_forgivesFirst htracked hforgives
  refine ⟨h', upToFirst_polling, hforgives, _,
    solveCall_of_forgiven hforgiven 4 otherByte (by decide), ?_⟩
  rintro ⟨e, hfirst, hconstraint⟩
  obtain ⟨e', hsecond, heq⟩ := Fallible.exists_of_map_eq_ok hconstraint
  cases (Constraint.mk.inj heq).1
  have hloaded : polling.2.solver.readExpr pollState loadedByte =
      .ok (Term.extract (Term.ivar ⟨"r0", 32⟩) 0 32 : Term) := rfl
  have hother : polling.2.solver.readExpr pollState otherByte = .ok (Term.val 0 8 : Term) := rfl
  cases hloaded.symm.trans hfirst
  cases hother.symm.trans hsecond

end DummyPeripheral

end FuguexPeripheral
