import FuguexPeripheral.Runs
import FuguexPeripheral.Bypass.Solver

/-!
# The dummy peripheral

`DummyPeripheral` stands in for a peripheral that firmware polls. A load from one of
its address ranges opens a solving session; the operations after it are handed to the
constraint solver; a branch back to the load, or before it, closes the session,
solves for the loaded value that leaves the loop, and writes it to memory.

* `hookOperationStep` is `hook_operation_step`, with a definition for each arm of its
  match. It is called before the emulator executes the operation.
* `solveCall` is the call of `solve` that a step makes, if any. The step itself
  uses it, so a step that panics inside `solve` also has one.
* `PeripheralEvent` and `Step`: the peripheral is driven by the hooks and by its
  configuration functions, in any order.
-/

namespace FuguexPeripheral

open ByteStore

structure SolvingResult where
  targetAddr : Address
  value : Nat
  size : Nat
  deriving DecidableEq, Repr

/-- The last load that opened a session. -/
structure MemReadEvent where
  pc : Address
  readAddress : Address
  size : Nat
  eventCounter : Nat
  deriving DecidableEq, Repr

structure DummyPeripheral (X : SymExprApi) where
  addressRangeList : List (Address × Address)
  eventCounter : Nat
  pcodeCounter : Nat
  solvingStarted : Bool
  solvingResultsCacheEnable : Bool
  solvingResults : Address → Option SolvingResult
  solverDefaultVars : String → Option Nat
  solver : ConstraintSolver X
  forgiveJump : UInt32
  forgiveFunCall : Int32
  forgiveBranchCondition : UInt32
  lastMemReadEvent : MemReadEvent

/-- The arguments of a call of `solve`. -/
structure SolveCall (X : SymExprApi) where
  solver : ConstraintSolver X
  condition : Operand
  expectedValue : Nat

/-- The address lies in one of the ranges, whose bounds are both included. -/
def InRange (ranges : List (Address × Address)) (a : Address) : Prop :=
  ∃ r ∈ ranges, r.1 ≤ a ∧ a ≤ r.2

instance (ranges : List (Address × Address)) (a : Address) : Decidable (InRange ranges a) :=
  inferInstanceAs (Decidable (∃ r ∈ ranges, r.1 ≤ a ∧ a ≤ r.2))

/-- The offset a branch goes to; a destination that is not an address counts as 0. -/
def Operand.branchOffset : Operand → Nat
  | .address value _ => value
  | _ => 0

namespace DummyPeripheral

variable {X : SymExprApi} {O : Order}

def new : DummyPeripheral X :=
  { addressRangeList := []
    eventCounter := 0
    pcodeCounter := 0
    solvingStarted := false
    solvingResultsCacheEnable := false
    solvingResults := fun _ => none
    solverDefaultVars := fun _ => none
    solver := .new
    forgiveJump := 0
    forgiveFunCall := 0
    forgiveBranchCondition := 0
    lastMemReadEvent := ⟨0, 0, 0, 0⟩ }

def enableSolvingResultCache (h : DummyPeripheral X) (enable : Bool) : DummyPeripheral X :=
  { h with solvingResultsCacheEnable := enable }

def addAddressRange (h : DummyPeripheral X) (range : Address × Address) : DummyPeripheral X :=
  { h with addressRangeList := h.addressRangeList ++ [range] }

def addDefaultReg (h : DummyPeripheral X) (name : String) (value : Nat) : DummyPeripheral X :=
  { h with solverDefaultVars := Function.update h.solverDefaultVars name (some value) }

/-- `solving_started = false`. -/
def stop (h : DummyPeripheral X) : DummyPeripheral X :=
  { h with solvingStarted := false }

/-! ## Load -/

/-- The cached result that a load from `a` uses. -/
def cached (h : DummyPeripheral X) (a : Address) : Option SolvingResult :=
  if h.solvingResultsCacheEnable then h.solvingResults a else none

/-- Open a session for a load of `size` bytes from `sourceOffset`. The count of
forgiven calls and returns is not reset. -/
def startSession (h : DummyPeripheral X) (s : PCodeState O) (sourceOffset : Address)
    (size : Nat) : DummyPeripheral X :=
  { h with
    pcodeCounter := 0
    lastMemReadEvent := ⟨s.programCounter, sourceOffset, size, h.eventCounter⟩
    solvingStarted := true
    forgiveJump := 0
    solver := ConstraintSolver.new.setDefaultVariables h.solverDefaultVars }

/-- The end of the slice of the eight value bytes that is put into memory for a
cached result, by the size of the load. -/
def cachedSlice : Order → Nat → Option Nat
  | .le, 1 => some 0
  | .le, 4 => some 4
  | .le, 8 => some 8
  | .be, 1 => some 0
  | .be, 4 => some 0
  | .be, 8 => some 0
  | _, _ => none

theorem cachedSlice_eq {O : Order} {size n : Nat} (h : cachedSlice O size = some n) :
    n = if O = .le ∧ (size = 4 ∨ size = 8) then size else 0 := by
  unfold cachedSlice at h
  split at h <;> cases h <;> rfl

/-- What the `Load` arm does for a range that `sourceOffset` lies in. -/
def serveLoad (sourceOffset : Address) (size : Nat) (hs : DummyPeripheral X × PCodeState O) :
    Except Panic (DummyPeripheral X × PCodeState O) :=
  match hs.1.cached sourceOffset with
  | some lastResult =>
    match cachedSlice O size with
    | some n => .ok (hs.1, hs.2.setValues sourceOffset ((encode O 8 lastResult.value).take n))
    | none => .error .loadEventSize
  | none => .ok (hs.1.startSession hs.2 sourceOffset size, hs.2)

/-- The loop of the `Load` arm over the ranges. -/
def loadLoop (sourceOffset : Address) (size : Nat) :
    List (Address × Address) → DummyPeripheral X × PCodeState O →
      Except Panic (DummyPeripheral X × PCodeState O)
  | [], hs => .ok hs
  | range :: ranges, hs =>
    if range.1 ≤ sourceOffset ∧ sourceOffset ≤ range.2 then
      match serveLoad sourceOffset size hs with
      | .ok hs => loadLoop sourceOffset size ranges hs
      | .error p => .error p
    else loadLoop sourceOffset size ranges hs

def onLoad (h : DummyPeripheral X) (s : PCodeState O) (source destination : Operand) :
    Except Panic (DummyPeripheral X × PCodeState O) :=
  loadLoop (s.getAddress source) destination.size h.addressRangeList (h, s)

/-! ## Store -/

/-- A store to the loaded address ends the session. -/
def onStore (h : DummyPeripheral X) (s : PCodeState O) (destination : Operand) :
    DummyPeripheral X :=
  if h.lastMemReadEvent.readAddress = s.getAddress destination then h.stop else h

/-! ## CBranch -/

/-- The condition value that leaves the loop: 0, or the opposite of what the
forgiven branch saw. -/
def expectedValue (h : DummyPeripheral X) : Nat :=
  if h.forgiveJump = 0 then 0 else if h.forgiveBranchCondition = 0 then 1 else 0

/-- The part of the `CBranch` arm before solving: whether the branch closes a loop. -/
def checkLoop (h : DummyPeripheral X) (s : PCodeState O) (destination condition : Operand) :
    DummyPeripheral X × Option (SolveCall X) :=
  if h.solvingStarted then
    let destAddr := destination.branchOffset
    let lastPc := h.lastMemReadEvent.pc
    if destAddr = lastPc then (h.stop, some ⟨h.solver, condition, h.expectedValue⟩)
    else if destAddr < lastPc then (h.stop, some ⟨h.solver, condition, h.expectedValue⟩)
    else
      let h := { h with forgiveJump := h.forgiveJump + 1 }
      if h.forgiveJump > 1 then (h.stop, none)
      else ({ h with forgiveBranchCondition := (s.getOperandU8 condition).toUInt32 }, none)
  else (h, none)

/-- Cache a solution, under the address of the load, whichever address it is for. -/
def cacheResult (h : DummyPeripheral X) (v : Nat) : DummyPeripheral X :=
  let event := h.lastMemReadEvent
  let result := SolvingResult.mk event.readAddress v event.size
  { h with solvingResults := Function.update h.solvingResults event.readAddress (some result) }

/-- Write one solution, at the size of the load, and cache it. -/
def writeSolution (hs : DummyPeripheral X × PCodeState O) (kv : Address × Option Nat) :
    DummyPeripheral X × PCodeState O :=
  match kv.2 with
  | none => hs
  | some v =>
    let lastSize := hs.1.lastMemReadEvent.size
    let s := if lastSize = 1 ∨ lastSize = 2 ∨ lastSize = 4 ∨ lastSize = 8 then
        hs.2.write kv.1 lastSize v
      else hs.2
    if hs.1.solvingResultsCacheEnable then (hs.1.cacheResult v, s) else (hs.1, s)

def onCBranch (env : SolverEnv X) (h : DummyPeripheral X) (s : PCodeState O)
    (destination condition : Operand) : Except Panic (DummyPeripheral X × PCodeState O) :=
  match h.checkLoop s destination condition with
  | (h, none) => .ok (h, s)
  | (h, some call) =>
    match call.solver.solve env s call.condition call.expectedValue with
    | .error p => .error p
    | .ok (none, solver) => .ok ({ h with solver := solver }, s)
    | .ok (some result, solver) =>
      let solutions := env.resultOrder (result.entries.map fun e => (e.1, e.2))
      .ok (solutions.foldl writeSolution ({ h with solver := solver }, s))

/-! ## ICall and Return -/

/-- Count a call or a return; anything but a matching pair ends the session. -/
def countFunCall (h : DummyPeripheral X) (change : Int32) : DummyPeripheral X :=
  if h.solvingStarted then
    let h := { h with forgiveFunCall := h.forgiveFunCall + change }
    if h.forgiveFunCall ≠ 0 then h.stop else h
  else h

def onICall (h : DummyPeripheral X) : DummyPeripheral X :=
  h.countFunCall 1

def onReturn (h : DummyPeripheral X) : DummyPeripheral X :=
  h.countFunCall (-1)

/-! ## The hooks -/

/-- The match of `hook_operation_step`. -/
def onOperation (env : SolverEnv X) (h : DummyPeripheral X) (s : PCodeState O) :
    PCodeOp → Except Panic (DummyPeripheral X × PCodeState O)
  | .load source destination => h.onLoad s source destination
  | .store _ destination => .ok (h.onStore s destination, s)
  | .cbranch destination condition => h.onCBranch env s destination condition
  | .icall _ => .ok (h.onICall, s)
  | .ret _ => .ok (h.onReturn, s)
  | _ => .ok (h, s)

/-- The operation is added to the solver. -/
def tracking (h : DummyPeripheral X) : Bool :=
  h.solvingStarted && h.forgiveJump == 0 && decide (0 ≤ h.forgiveFunCall)

def track (h : DummyPeripheral X) (s : PCodeState O) (operation : PCodeOp) :
    Except Panic (DummyPeripheral X) :=
  if h.tracking then
    match h.solver.addPcode operation s with
    | .ok solver => .ok { h with solver := solver }
    | .error p => .error p
  else .ok h

def hookOperationStep (env : SolverEnv X) (h : DummyPeripheral X) (s : PCodeState O)
    (operation : PCodeOp) : Except Panic (DummyPeripheral X × PCodeState O) :=
  match h.onOperation env s operation with
  | .error p => .error p
  | .ok (h, s) =>
    match h.track s operation with
    | .error p => .error p
    | .ok h => .ok ({ h with pcodeCounter := h.pcodeCounter + 1 }, s)

def hookArchitecturalStep (h : DummyPeripheral X) : DummyPeripheral X :=
  { h with eventCounter := h.eventCounter + 1 }

/-- The call of `solve` that a step makes. -/
def solveCall (h : DummyPeripheral X) (s : PCodeState O) : PCodeOp → Option (SolveCall X)
  | .cbranch destination condition => (h.checkLoop s destination condition).2
  | _ => none

/-- The value that the solver returns for `a` at a step, if the step calls it. -/
def solved (env : SolverEnv X) (h : DummyPeripheral X) (s : PCodeState O) (op : PCodeOp)
    (a : Address) : Option Nat :=
  match h.solveCall s op with
  | none => none
  | some call => call.solver.solution env s call.condition call.expectedValue a

end DummyPeripheral

open DummyPeripheral

/-! ## Runs -/

/-- What happens to a peripheral: a hook is called, or it is configured. -/
inductive PeripheralEvent (O : Order)
  | operation (state : PCodeState O) (operation : PCodeOp)
  | architectural
  | addAddressRange (range : Address × Address)
  | enableCache (enable : Bool)
  | addDefaultReg (name : String) (value : Nat)

/-- One event. An operation step that panics leads nowhere. -/
def PeripheralEvent.apply {X : SymExprApi} {O : Order} (env : SolverEnv X)
    (h : DummyPeripheral X) : PeripheralEvent O → Except Panic (DummyPeripheral X)
  | .operation s op => (h.hookOperationStep env s op).map Prod.fst
  | .architectural => .ok h.hookArchitecturalStep
  | .addAddressRange range => .ok (h.addAddressRange range)
  | .enableCache enable => .ok (h.enableSolvingResultCache enable)
  | .addDefaultReg name value => .ok (h.addDefaultReg name value)

namespace DummyPeripheral

variable {X : SymExprApi} {O : Order}

def Step (env : SolverEnv X) (h : DummyPeripheral X) (e : PeripheralEvent O)
    (h' : DummyPeripheral X) : Prop :=
  e.apply env h = .ok h'

/-- The runs of a peripheral from `new()`. -/
abbrev History (env : SolverEnv X) (tr : List (DummyPeripheral X × PeripheralEvent O))
    (h : DummyPeripheral X) : Prop :=
  Runs.Run (Step env) new tr h

end DummyPeripheral

end FuguexPeripheral
