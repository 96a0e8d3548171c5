import FuguexPeripheral.Fallible
import FuguexPeripheral.Bypass.Solver

/-!
# What the solver lists

One lemma for each function of the constraint solver that changes its state.

Results:
1. `varListInsert_cases`, `insertResult_cases`, `read_cases`: insertions and reads.
2. `addPcode_varToSolve`: only a load adds a target to solve.
-/

namespace FuguexPeripheral

open ByteStore Fallible

namespace ConstraintSolver

variable {X : SymExprApi} {O : Order} {c c' : ConstraintSolver X} {s : PCodeState O}

/-- An insertion makes its expression the current version under the key. -/
theorem varListInsert_cases {operand : Operand} {expr : Option X.Expr} {e : X.Expr}
    (hins : c.varListInsert operand expr = .ok (e, c')) :
    ∃ key v, Variables.genVariableName operand = some key ∧ v.getSymExpr = e ∧
      c' = c.setVar key v := by
  unfold varListInsert at hins
  split at hins
  next => cases hins
  next key hkey =>
    split at hins
    next var _ =>
      cases hins
      exact ⟨key, _, hkey, Variables.getSymExpr_update _ _, rfl⟩
    next =>
      cases hins
      exact ⟨key, _, hkey, Variables.getSymExpr_new _ _, rfl⟩

/-- An operand that is not a constant can be inserted. -/
theorem varListInsert_ok {operand : Operand} {key : String}
    (hkey : Variables.genVariableName operand = some key) (c : ConstraintSolver X)
    (expr : Option X.Expr) : ∃ e c', c.varListInsert operand expr = .ok (e, c') := by
  unfold varListInsert
  rw [hkey]
  dsimp only
  cases c.varList key with
  | none => exact ⟨_, _, rfl⟩
  | some v => exact ⟨_, _, rfl⟩

theorem varListInsert_varToSolve {operand : Operand} {expr : Option X.Expr} {e : X.Expr}
    (hins : c.varListInsert operand expr = .ok (e, c')) : c'.varToSolve = c.varToSolve := by
  obtain ⟨key, v, -, -, rfl⟩ := varListInsert_cases hins
  rfl

/-- An insertion with an expression returns it. -/
theorem varListInsert_some {operand : Operand} {e e' : X.Expr}
    (hins : c.varListInsert operand (some e) = .ok (e', c')) : e' = e := by
  unfold varListInsert at hins
  split at hins
  next => cases hins
  next =>
    split at hins
    next =>
      cases hins
      rfl
    next =>
      cases hins
      rfl

theorem insertResult_cases {result : Operand} {e : X.Expr}
    (hins : c.insertResult result e = .ok c') :
    c.varListInsert result (some e) = .ok (e, c') := by
  unfold insertResult at hins
  split at hins
  next e' c₁ hc₁ =>
    cases hins
    rw [hc₁, varListInsert_some hc₁]
  next => cases hins

theorem insertResult_ok {result : Operand} {key : String}
    (hkey : Variables.genVariableName result = some key) (c : ConstraintSolver X)
    (e : X.Expr) : ∃ c', c.insertResult result e = .ok c' := by
  obtain ⟨e', c', hins⟩ := varListInsert_ok hkey c (some e)
  unfold insertResult
  rw [hins]
  exact ⟨c', rfl⟩

/-- The value that an operand is captured with at its first read: its default, or else the first
byte that it has in the state. -/
def capturedValue (c : ConstraintSolver X) (s : PCodeState O) (key : String) (operand : Operand) :
    Nat :=
  match c.defaultVariables key with
  | some defaultValue => defaultValue % 2 ^ 64
  | none => (s.getOperandU8 operand).toNat

/-- A read gives a constant, the current version of a listed operand, or the captured value of
one that is not listed, which it inserts. -/
theorem read_cases {operand : Operand} {e : X.Expr}
    (hread : c.symexprFromOperandRead s operand = .ok (e, c')) :
    (∃ value size, operand = .constant value size ∧ e = X.val value (8 * size) ∧ c' = c) ∨
    ∃ key, Variables.genVariableName operand = some key ∧
      ((∃ v, c.varList key = some v ∧ e = v.getSymExpr ∧ c' = c) ∨
        c.varList key = none ∧ e = X.val (c.capturedValue s key operand) (8 * operand.size) ∧
          c.varListInsert operand (some e) = .ok (e, c')) := by
  unfold symexprFromOperandRead at hread
  split at hread
  next value size =>
    cases hread
    exact .inl ⟨value, size, rfl, rfl, rfl⟩
  next =>
    unfold varListGet at hread
    split at hread
    next => cases hread
    next key hkey =>
      refine .inr ⟨key, hkey, ?_⟩
      split at hread
      next v hv =>
        cases hread
        exact .inl ⟨v, hv, rfl, rfl⟩
      next hnone =>
        refine .inr ⟨hnone, ?_⟩
        unfold capturedValue
        cases hdefault : c.defaultVariables key with
        | some defaultValue =>
          rw [hdefault] at hread
          have he := varListInsert_some hread
          exact ⟨he, he ▸ hread⟩
        | none =>
          rw [hdefault] at hread
          dsimp only at hread
          split at hread
          next =>
            split at hread
            next =>
              have he := varListInsert_some hread
              exact ⟨he, he ▸ hread⟩
            next => cases hread
          next => cases hread

theorem symexprFromOperandRead_of_key {operand : Operand} {key : String}
    (c : ConstraintSolver X) (s : PCodeState O)
    (hkey : Variables.genVariableName operand = some key) :
    c.symexprFromOperandRead s operand = c.varListGet s operand := by
  cases operand with
  | constant => cases hkey
  | address | register | «variable» => rfl

/-- The first read of an operand that can be captured. -/
theorem read_capture {operand : Operand} {key : String}
    (hkey : Variables.genVariableName operand = some key) (hnone : c.varList key = none)
    (hcapturable : (c.defaultVariables key).isSome = true ∨ operand.isRegister = true ∧
      (operand.size = 1 ∨ operand.size = 2 ∨ operand.size = 4 ∨ operand.size = 8)) :
    ∃ v, c.symexprFromOperandRead s operand = .ok (v.getSymExpr, c.setVar key v) ∧
      v.getSymExpr = X.val (c.capturedValue s key operand) (8 * operand.size) := by
  have hins : ∀ e : X.Expr,
      c.varListInsert operand (some e) = .ok (e, c.setVar key (Variables.new key e)) := by
    intro e
    unfold varListInsert
    rw [hkey]
    dsimp only
    rw [hnone]
    rfl
  refine ⟨Variables.new key (X.val (c.capturedValue s key operand) (8 * operand.size)), ?_, rfl⟩
  rw [symexprFromOperandRead_of_key c s hkey]
  unfold varListGet capturedValue
  rw [hkey]
  dsimp only
  rw [hnone]
  dsimp only
  cases hdefault : c.defaultVariables key with
  | some defaultValue => exact hins _
  | none =>
    rw [hdefault] at hcapturable
    obtain ⟨hreg, hsize⟩ := hcapturable.resolve_left nofun
    cases operand with
    | register name offset size => exact (if_pos hsize).trans (hins _)
    | constant | address | «variable» => cases hreg

/-- A listed operand reads as its current version. -/
theorem varListGet_listed {operand : Operand} {key : String} {v : Variables X}
    (hkey : Variables.genVariableName operand = some key) (hv : c.varList key = some v) :
    c.varListGet s operand = .ok (v.getSymExpr, c) := by
  unfold varListGet
  rw [hkey]
  dsimp only
  rw [hv]

theorem insertResult_varToSolve {result : Operand} {e : X.Expr}
    (hins : c.insertResult result e = .ok c') : c'.varToSolve = c.varToSolve :=
  varListInsert_varToSolve (insertResult_cases hins)

theorem read_varToSolve {operand : Operand} {e : X.Expr}
    (hread : c.symexprFromOperandRead s operand = .ok (e, c')) :
    c'.varToSolve = c.varToSolve := by
  rcases read_cases hread with ⟨-, -, -, -, rfl⟩ | ⟨key, -, ⟨-, -, -, rfl⟩ | ⟨-, -, hins⟩⟩
  · rfl
  · rfl
  · exact varListInsert_varToSolve hins

/-- Only a load adds a target, under the key of its pointer and at the address it loads from. -/
theorem addPcode_varToSolve {op : PCodeOp} (hadd : c.addPcode op s = .ok c') :
    (∀ source destination, op ≠ .load source destination) ∧ c'.varToSolve = c.varToSolve ∨
    ∃ source destination, ∃ (key : String) (e : X.Expr), op = .load source destination ∧
      Variables.genVariableName source = some key ∧
      c'.varToSolve = c.varToSolve.insert key (e, s.getAddress source) := by
  cases op with
  | load source destination =>
    obtain ⟨⟨e, c₁⟩, hins, hrest⟩ := exists_of_bind_eq_ok hadd
    dsimp only at hrest
    split at hrest
    next => cases hrest
    next key hkey =>
      refine .inr ⟨source, destination, key, e, rfl, hkey, ?_⟩
      rw [insertResult_varToSolve hrest, varListInsert_varToSolve hins]
  | copy source destination | store source destination =>
    obtain ⟨⟨e, c₁⟩, hread, hrest⟩ := exists_of_bind_eq_ok hadd
    exact .inl ⟨nofun, (insertResult_varToSolve hrest).trans (read_varToSolve hread)⟩
  | binary op result a b =>
    obtain ⟨⟨e₁, c₁⟩, hread₁, hrest⟩ := exists_of_bind_eq_ok hadd
    obtain ⟨⟨e₂, c₂⟩, hread₂, hrest⟩ := exists_of_bind_eq_ok hrest
    refine .inl ⟨nofun, ?_⟩
    rw [insertResult_varToSolve hrest, read_varToSolve hread₂, read_varToSolve hread₁]
  | unary op result a =>
    obtain ⟨⟨e, c₁⟩, hread, hrest⟩ := exists_of_bind_eq_ok hadd
    exact .inl ⟨nofun, (insertResult_varToSolve hrest).trans (read_varToSolve hread)⟩
  | subpiece result a amount =>
    obtain ⟨⟨e, c₁⟩, hread, hrest⟩ := exists_of_bind_eq_ok hadd
    dsimp only at hrest
    split at hrest
    next => exact .inl ⟨nofun, (insertResult_varToSolve hrest).trans (read_varToSolve hread)⟩
    next => cases hrest
  | cbranch | ret | call | branch | skip =>
    cases hadd
    exact .inl ⟨nofun, rfl⟩
  | ibranch | icall | other => cases hadd

end ConstraintSolver

end FuguexPeripheral
