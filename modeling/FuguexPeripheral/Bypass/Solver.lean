import Mathlib.Data.List.AList
import FuguexPeripheral.Bypass.SymExpr

/-!
# The constraint solver of the bypass

`ConstraintSolver` follows the p-code of a loop symbolically. `varList` maps the
key of an operand to the versions its symbolic value went through, `varToSolve`
the key of a loaded operand to the variable to solve and the address it was loaded
from. `addPcode` adds one operation, `solve` asks for the values that give an
operand its expected value.

A map that is only looked up is a function here; a map that is iterated is an
association list, and the environment chooses the order. A panic of the source is
an `Except.error`; integer arithmetic wraps, as in a release build.
-/

namespace FuguexPeripheral

/-- The panics of the solver and of the hook, with the data that their texts
print. -/
inductive Panic
  /-- "Constant operand ({:#?}) should not be instered to variable list" -/
  | constantInserted (operand : Operand)
  /-- `unwrap` of the name of a constant. -/
  | unnamed (operand : Operand)
  /-- "Variable({:?}), name({:?}) not in the list" -/
  | notInList (operand : Operand) (varName : String)
  /-- "Unexpected size: {:?}" -/
  | unexpectedSize (size : Nat)
  /-- "Should not happen: Subpiece: amount is not a constant {:?}" -/
  | subpieceAmount (instruction : PCodeOp)
  /-- "PC {} Instruction({:?}) not yet supported by solver." -/
  | notSupported (pc : Address) (instruction : PCodeOp)
  /-- "Unexpected value size for last load event" -/
  | loadEventSize
  deriving DecidableEq, Repr

/-! ## Versioned variables -/

/-- A tracked operand: one symbolic value for each version, the last one current. -/
structure Variables (X : SymExprApi) where
  name : String
  version : Nat
  symExpr : List X.Expr
  nonempty : symExpr ≠ []

namespace Variables

variable {X : SymExprApi}

/-- The key of an operand, also the name of its symbolic variables. -/
def genVariableName : Operand → Option String
  | .address value _ => some (toString value)
  | .register name _ _ => some name
  | .variable space offset _ => some (space.debug ++ ":" ++ toString offset)
  | .constant _ _ => none

theorem genVariableName_isSome {o : Operand} (hc : o.isConstant = false) :
    ∃ key, genVariableName o = some key := by
  cases o with
  | constant => cases hc
  | address | register | «variable» => exact ⟨_, rfl⟩

theorem isConstant_of_key {o : Operand} {key : String} (hkey : genVariableName o = some key) :
    o.isConstant = false := by
  cases o with
  | constant => cases hkey
  | address | register | «variable» => rfl

def new (name : String) (e : X.Expr) : Variables X :=
  { name := name, version := 0, symExpr := [e], nonempty := List.cons_ne_nil _ _ }

def update (v : Variables X) (e : X.Expr) : Variables X :=
  { name := v.name
    version := v.version + 1
    symExpr := v.symExpr ++ [e]
    nonempty := List.concat_ne_nil _ _ }

def getSymVarNameNext (v : Variables X) : String :=
  v.name ++ "-" ++ toString (v.version + 1)

def getSymExpr (v : Variables X) : X.Expr :=
  v.symExpr.getLast v.nonempty

@[simp] theorem getSymExpr_new (name : String) (e : X.Expr) : (new name e).getSymExpr = e :=
  rfl

@[simp] theorem getSymExpr_update (v : Variables X) (e : X.Expr) : (v.update e).getSymExpr = e :=
  List.getLast_append_singleton _

end Variables

open Variables
open ByteStore (Order)

/-! ## The solver -/

structure ConstraintSolver (X : SymExprApi) where
  defaultVariables : String → Option Nat
  varList : String → Option (Variables X)
  varToSolve : AList (fun _ : String => X.Expr × Address)

/-- The constructor that `add_pcode` uses for an operation. -/
def BinOp.sym : BinOp → SymBin
  | .intAnd => .and
  | .boolAnd => .boolAnd
  | .intOr => .or
  | .boolXor => .boolXor
  | .intXor => .xor
  | .intLeftShift => .shl
  | .intRightShift => .shr
  | .intSRightShift => .signedShr
  | .intEq => .eq
  | .intNotEq => .ne
  | .intSLess => .slt
  | .intLess => .lt
  | .intSub => .sub
  | .intAdd => .add
  | .intCarry => .carry
  | .intSCarry => .signedCarry
  -- `or` and not `bool_or`, although the other two Boolean operations have theirs
  | .boolOr => .or

/-- The constructor for an operation with one input, `bits` the width of the result. -/
def UnOp.sym (X : SymExprApi) (op : UnOp) (e : X.Expr) (bits : Nat) : X.Expr :=
  match op with
  | .intNot => X.not e
  | .intNeg => X.neg e
  | .intZExt => X.zeroExtend e bits
  | .intSExt => X.signExtend e bits

namespace ConstraintSolver

variable {X : SymExprApi} {O : Order}

def new : ConstraintSolver X :=
  { defaultVariables := fun _ => none, varList := fun _ => none, varToSolve := ∅ }

def setDefaultVariables (c : ConstraintSolver X) (vars : String → Option Nat) :
    ConstraintSolver X :=
  { c with defaultVariables := vars }

/-- Make `e` the current version under a key. -/
def setVar (c : ConstraintSolver X) (key : String) (v : Variables X) : ConstraintSolver X :=
  { c with varList := Function.update c.varList key (some v) }

@[simp] theorem varList_setVar_self (c : ConstraintSolver X) (key : String) (v : Variables X) :
    (c.setVar key v).varList key = some v :=
  Function.update_self key _ _

theorem varList_setVar_of_ne {key key' : String} (h : key' ≠ key) (c : ConstraintSolver X)
    (v : Variables X) : (c.setVar key v).varList key' = c.varList key' :=
  Function.update_of_ne h _ _

/-- A key that is not listed afterwards is another one, and was not listed before. -/
theorem varList_setVar_eq_none {c : ConstraintSolver X} {key key' : String} {v : Variables X} :
    (c.setVar key v).varList key' = none ↔ key' ≠ key ∧ c.varList key' = none := by
  by_cases hsame : key' = key
  · simp [hsame]
  · simp [hsame, varList_setVar_of_ne]

/-- Update an operand in the variable list, or insert it. Without an expression it
gets a new symbolic variable. -/
def varListInsert (c : ConstraintSolver X) (operand : Operand) (expr : Option X.Expr) :
    Except Panic (X.Expr × ConstraintSolver X) :=
  match genVariableName operand with
  | none => .error (.constantInserted operand)
  | some key =>
    match c.varList key with
    | some varInList =>
      let varUpdated := expr.getD (X.ivar ⟨varInList.getSymVarNameNext, 8 * operand.size⟩)
      .ok (varUpdated, c.setVar key (varInList.update varUpdated))
    | none =>
      let var := expr.getD (X.ivar ⟨key, 8 * operand.size⟩)
      .ok (var, c.setVar key (Variables.new key var))

/-- The symbolic value of an operand that is not a constant: its current version, or
else its default value, or else, for a register, the concrete value in the state,
which the source reads at type `u8` for every size. -/
def varListGet (c : ConstraintSolver X) (s : PCodeState O) (operand : Operand) :
    Except Panic (X.Expr × ConstraintSolver X) :=
  match genVariableName operand with
  | none => .error (.unnamed operand)
  | some varName =>
    match c.varList varName with
    | some var => .ok (var.getSymExpr, c)
    | none =>
      match c.defaultVariables varName with
      | some defaultValue =>
        c.varListInsert operand (some (X.val (defaultValue % 2 ^ 64) (8 * operand.size)))
      | none =>
        match operand with
        | .register _ _ size =>
          if size = 1 ∨ size = 2 ∨ size = 4 ∨ size = 8 then
            c.varListInsert operand (some (X.val (s.getOperandU8 operand).toNat (8 * size)))
          else .error (.unexpectedSize size)
        | _ => .error (.notInList operand varName)

def symexprFromOperandRead (c : ConstraintSolver X) (s : PCodeState O) (operand : Operand) :
    Except Panic (X.Expr × ConstraintSolver X) :=
  match operand with
  | .constant value size => .ok (X.val value (8 * size), c)
  | _ => c.varListGet s operand

/-- `var_list_insert` of a result, whose returned expression is dropped. -/
def insertResult (c : ConstraintSolver X) (result : Operand) (e : X.Expr) :
    Except Panic (ConstraintSolver X) :=
  match c.varListInsert result (some e) with
  | .ok (_, c) => .ok c
  | .error p => .error p

/-- The number of bits that `Subpiece` keeps, in `u64` arithmetic. -/
def subpieceBits (operand result : Operand) (amount : Nat) : Nat :=
  let bitsPreserve := (2 ^ 64 + operand.size - amount % 2 ^ 64) % 2 ^ 64 * 8 % 2 ^ 64
  min bitsPreserve (result.size * 8)

/-- Add an operation to the symbolic state. -/
def addPcode (c : ConstraintSolver X) (instruction : PCodeOp) (s : PCodeState O) :
    Except Panic (ConstraintSolver X) :=
  match instruction with
  | .load source destination => do
    let sourceAddress := s.getAddress source
    let (varSrc, c) ← c.varListInsert source none
    match genVariableName source with
    | none => .error (.unnamed source)
    | some key =>
      -- mark it as a target variable to be solved
      let c := { c with varToSolve := c.varToSolve.insert key (varSrc, sourceAddress) }
      c.insertResult destination (X.extractLow varSrc (8 * destination.size))
  | .copy source destination => do
    let (srcSym, c) ← c.symexprFromOperandRead s source
    c.insertResult destination srcSym
  | .store source destination => do
    let (srcSym, c) ← c.symexprFromOperandRead s source
    c.insertResult destination srcSym
  | .binary op result operand₀ operand₁ => do
    let (op1Sym, c) ← c.symexprFromOperandRead s operand₀
    let (op2Sym, c) ← c.symexprFromOperandRead s operand₁
    c.insertResult result (X.binary op.sym op1Sym op2Sym)
  | .unary op result operand => do
    let (opSym, c) ← c.symexprFromOperandRead s operand
    c.insertResult result (op.sym X opSym (8 * result.size))
  | .subpiece result operand amount => do
    let (opSym, c) ← c.symexprFromOperandRead s operand
    match amount with
    | .constant value _ =>
      c.insertResult result (X.extract opSym 0 (subpieceBits operand result value))
    | _ => .error (.subpieceAmount instruction)
  | .cbranch _ _ | .ret _ | .call _ | .branch _ | .skip => .ok c
  | .ibranch _ | .icall _ | .other _ => .error (.notSupported s.programCounter instruction)

/-! ## Solving -/

/-- The loop of `solve` over the values of `varToSolve`, in the given order. The
solver context is threaded through, a later entry for an address replaces an earlier
one. -/
def solveValues (env : SolverEnv X) (constraint : X.Expr) :
    List (X.Expr × Address) → env.Ctx → AList (fun _ : Address => Option Nat) →
      AList (fun _ : Address => Option Nat)
  | [], _, returnRes => returnRes
  | (expr, addr) :: values, ctx, returnRes =>
    let (solveRes, ctx) := env.solve ctx expr [constraint]
    solveValues env constraint values ctx (returnRes.insert addr (solveRes.bind toU64))

/-- Solve for an operand to have the expected value: a value, or none, for each
address in `varToSolve`, or nothing at all when there are none. -/
def solve (env : SolverEnv X) (c : ConstraintSolver X) (s : PCodeState O) (operand : Operand)
    (expectedValue : Nat) :
    Except Panic (Option (AList (fun _ : Address => Option Nat)) × ConstraintSolver X) := do
  let (opSym, c) ← c.symexprFromOperandRead s operand
  let expectedSym := X.val expectedValue (X.bits opSym)
  let constraint := X.binary .eq opSym expectedSym
  let values := env.varOrder (c.varToSolve.entries.map Sigma.snd)
  let returnRes := solveValues env constraint values env.newIndependent ∅
  return (if returnRes.entries.isEmpty then none else some returnRes, c)

/-- The value that `solve` returns for `a`, if any. -/
def solution (env : SolverEnv X) (c : ConstraintSolver X) (s : PCodeState O) (operand : Operand)
    (expectedValue : Nat) (a : Address) : Option Nat :=
  match c.solve env s operand expectedValue with
  | .ok (some result, _) => (result.lookup a).join
  | _ => none

end ConstraintSolver

end FuguexPeripheral
