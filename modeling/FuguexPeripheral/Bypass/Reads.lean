import FuguexPeripheral.StraightLine
import FuguexPeripheral.Bypass.Listing

/-!
# What an operand reads as

`add_pcode` reads its input operands one after another, combines their expressions, and lists the
result under its output operand. A read lists its operand too, when it is the first one.

Results:
1. `readExpr_insert`, `readExpr_read`, `readExpr_readAll`: what an operand reads as afterwards.
2. `addPcode_cases`: an operation has no effect, or it is a load, or it combines what it reads.
3. `addPcode_straightLine`: a straight-line operation does the last.
-/

namespace FuguexPeripheral

open ByteStore Fallible Variables

namespace PCodeOp

/-- The operands that `add_pcode` reads, in its order. The pointers of loads and stores are not
among them. -/
def inputs : PCodeOp → List Operand
  | .copy source _ | .store source _ => [source]
  | .binary _ _ a b => [a, b]
  | .unary _ _ a => [a]
  | .subpiece _ operand _ => [operand]
  | _ => []

/-- The operand that `add_pcode` lists the result under: the output, and the pointer of a store. -/
def listed : PCodeOp → Option Operand
  | .load _ destination | .copy _ destination | .store _ destination => some destination
  | .binary _ result _ _ | .unary _ result _ | .subpiece result _ _ => some result
  | _ => none

/-- The expression that `add_pcode` makes of the ones it reads. -/
def combine (X : SymExprApi) : PCodeOp → List X.Expr → X.Expr
  | .copy _ _, [e] | .store _ _, [e] => e
  | .binary op _ _ _, [e₁, e₂] => X.binary op.sym e₁ e₂
  | .unary op result _, [e] => op.sym X e (8 * result.size)
  | .subpiece result operand (.constant value _), [e] =>
    X.extract e 0 (ConstraintSolver.subpieceBits operand result value)
  | _, _ => X.val 0 0

end PCodeOp

namespace ConstraintSolver

variable {X : SymExprApi} {O : Order} {c c' : ConstraintSolver X} {s t : PCodeState O}
  {x o : Operand} {k : String} {e : X.Expr}

/-- The expression that an operand reads as, or the panic of the read. -/
def readExpr (c : ConstraintSolver X) (s : PCodeState O) (o : Operand) : Except Panic X.Expr :=
  (c.symexprFromOperandRead s o).map Prod.fst

/-- Read operands one after another. -/
def readAll (c : ConstraintSolver X) (s : PCodeState O) :
    List Operand → Except Panic (List X.Expr × ConstraintSolver X)
  | [] => .ok ([], c)
  | o :: os => do
    let (e, c) ← c.symexprFromOperandRead s o
    let (es, c) ← c.readAll s os
    return (e :: es, c)

/-! ## Reads after insertions -/

theorem readAll_cons {os : List Operand} {es : List X.Expr} {c'' : ConstraintSolver X}
    (hread : c.symexprFromOperandRead s o = .ok (e, c')) (hrest : c'.readAll s os = .ok (es, c'')) :
    c.readAll s (o :: os) = .ok (e :: es, c'') := by
  unfold readAll
  rw [hread]
  show (c'.readAll s os).bind _ = _
  rw [hrest]
  rfl

theorem readExpr_of_read (hread : c.symexprFromOperandRead s o = .ok (e, c')) :
    c.readExpr s o = .ok e := by
  unfold readExpr
  rw [hread]
  rfl

/-- A listed operand reads as its current version. -/
theorem readExpr_listed {v : Variables X} (hkey : genVariableName o = some k)
    (hv : c.varList k = some v) : c.readExpr s o = .ok v.getSymExpr :=
  readExpr_of_read ((symexprFromOperandRead_of_key c s hkey).trans (varListGet_listed hkey hv))

/-- What an operand reads as depends on its own entry only. -/
theorem readExpr_congr (hkey : genVariableName o = some k) (hlist : c'.varList k = c.varList k)
    (hdefaults : c'.defaultVariables = c.defaultVariables) : c'.readExpr s o = c.readExpr s o := by
  cases hv : c.varList k with
  | some v => rw [readExpr_listed hkey hv, readExpr_listed hkey (hlist.trans hv)]
  | none =>
    have hins : ∀ e : X.Expr, (c'.varListInsert o (some e)).map Prod.fst =
        (c.varListInsert o (some e)).map Prod.fst := by
      intro e
      unfold varListInsert
      rw [hkey]
      dsimp only
      rw [hlist, hv]
      rfl
    unfold readExpr
    rw [symexprFromOperandRead_of_key c' s hkey, symexprFromOperandRead_of_key c s hkey]
    unfold varListGet
    rw [hkey]
    dsimp only
    rw [hlist, hv, hdefaults]
    dsimp only
    split
    next => exact hins _
    next =>
      split
      next =>
        split
        next => exact hins _
        next => rfl
      next => rfl

theorem readExpr_insert {expr : Option X.Expr} (hkey : genVariableName o = some k)
    (hins : c.varListInsert x expr = .ok (e, c')) :
    c'.readExpr s o = if genVariableName x = some k then .ok e else c.readExpr s o := by
  obtain ⟨k', v, hx, hv, rfl⟩ := varListInsert_cases hins
  rw [hx]
  split
  next hsame =>
    cases hsame
    rw [readExpr_listed hkey (varList_setVar_self c k v), hv]
  next hne =>
    exact readExpr_congr hkey (varList_setVar_of_ne (fun h => hne (congrArg some h.symm)) c v) rfl

theorem readExpr_insertResult (hkey : genVariableName o = some k)
    (hins : c.insertResult x e = .ok c') :
    c'.readExpr s o = if genVariableName x = some k then .ok e else c.readExpr s o :=
  readExpr_insert hkey (insertResult_cases hins)

/-- A read lists its operand at what it reads as. -/
theorem readExpr_read (hkey : genVariableName o = some k)
    (hread : c.symexprFromOperandRead s x = .ok (e, c')) :
    c'.readExpr t o = if genVariableName x = some k then .ok e else c.readExpr t o := by
  rcases read_cases hread with ⟨value, size, rfl, -, rfl⟩ |
    ⟨key, hx, ⟨v, hv, rfl, rfl⟩ | ⟨-, -, hins⟩⟩
  · rw [if_neg nofun]
  · split
    next hsame =>
      cases hx.symm.trans hsame
      exact readExpr_listed hkey hv
    next => rfl
  · exact readExpr_insert hkey hins

/-- After reads the first operand with the key decides. -/
theorem readExpr_readAll {xs : List Operand} {es : List X.Expr} (hkey : genVariableName o = some k)
    (hread : c.readAll s xs = .ok (es, c')) :
    c'.readExpr t o = match xs.find? fun x => genVariableName x = some k with
      | some x => c.readExpr s x
      | none => c.readExpr t o := by
  induction xs generalizing c es with
  | nil =>
    cases hread
    rfl
  | cons x xs ih =>
    obtain ⟨⟨e, c₁⟩, hx, hrest⟩ := exists_of_bind_eq_ok hread
    obtain ⟨⟨es', c₂⟩, hxs, hrest⟩ := exists_of_bind_eq_ok hrest
    cases hrest
    -- an operand under the key reads as `x` from here on, if `x` has the key
    have hafter : ∀ {y} {t : PCodeState O}, genVariableName y = some k →
        c₁.readExpr t y = if genVariableName x = some k then .ok e else c.readExpr t y :=
      fun hy => readExpr_read hy hx
    rw [ih hxs, List.find?_cons]
    cases hsame : decide (genVariableName x = some k) with
    | true =>
      have hafter' : ∀ {y} {t : PCodeState O}, genVariableName y = some k →
          c₁.readExpr t y = c.readExpr s x := by
        intro y t hy
        rw [hafter hy, if_pos (of_decide_eq_true hsame), readExpr_of_read hx]
      split
      next y hfind =>
        have hy := List.find?_some hfind
        exact hafter' (of_decide_eq_true hy)
      next => exact hafter' hkey
    | false =>
      have hafter' : ∀ {y} {t : PCodeState O}, genVariableName y = some k →
          c₁.readExpr t y = c.readExpr t y := by
        intro y t hy
        rw [hafter hy, if_neg (of_decide_eq_false hsame)]
      dsimp only
      cases hfind : xs.find? fun x => decide (genVariableName x = some k) with
      | some y =>
        have hy := List.find?_some hfind
        exact hafter' (of_decide_eq_true hy)
      | none => exact hafter' hkey

/-! ## Operations -/

/-- The variable that a load makes for its pointer. -/
def freshVar (c : ConstraintSolver X) (key : String) (o : Operand) : X.Expr :=
  match c.varList key with
  | some v => X.ivar ⟨v.getSymVarNameNext, 8 * o.size⟩
  | none => X.ivar ⟨key, 8 * o.size⟩

theorem varListInsert_fresh (hkey : genVariableName x = some k)
    (hins : c.varListInsert x none = .ok (e, c')) : e = c.freshVar k x := by
  unfold varListInsert at hins
  rw [hkey] at hins
  dsimp only at hins
  unfold freshVar
  cases hv : c.varList k with
  | some v =>
    rw [hv] at hins
    cases hins
    rfl
  | none =>
    rw [hv] at hins
    cases hins
    rfl

/-- An operation has no effect; or it is a load, which makes a new variable for its pointer; or it
reads its inputs and lists what it makes of them. -/
theorem addPcode_cases {op : PCodeOp} (hadd : c.addPcode op s = .ok c') :
    (op.listed = none ∧ c' = c) ∨
    (∃ source destination key, ∃ c₁ c₂ : ConstraintSolver X, op = .load source destination ∧
      genVariableName source = some key ∧
      c.varListInsert source none = .ok (c.freshVar key source, c₁) ∧
      c₂.varList = c₁.varList ∧ c₂.defaultVariables = c₁.defaultVariables ∧
      c₂.insertResult destination (X.extractLow (c.freshVar key source) (8 * destination.size)) =
        .ok c') ∨
    (∃ r es, ∃ c₁ : ConstraintSolver X, (∀ source destination, op ≠ .load source destination) ∧
      op.listed = some r ∧ c.readAll s op.inputs = .ok (es, c₁) ∧
      c₁.insertResult r (op.combine X es) = .ok c') := by
  cases op with
  | load source destination =>
    obtain ⟨⟨e, c₁⟩, hins, hrest⟩ := exists_of_bind_eq_ok hadd
    dsimp only at hrest
    split at hrest
    next => cases hrest
    next key hkey =>
      cases varListInsert_fresh hkey hins
      let targets := c₁.varToSolve.insert key (c.freshVar key source, s.getAddress source)
      exact .inr (.inl ⟨source, destination, key, c₁, { c₁ with varToSolve := targets }, rfl, hkey,
        hins, rfl, rfl, hrest⟩)
  | copy source destination | store source destination =>
    obtain ⟨⟨e, c₁⟩, hread, hins⟩ := exists_of_bind_eq_ok hadd
    exact .inr (.inr ⟨destination, [e], c₁, nofun, rfl, readAll_cons hread rfl, hins⟩)
  | binary op result a b =>
    obtain ⟨⟨e₁, c₁⟩, hread₁, hrest⟩ := exists_of_bind_eq_ok hadd
    obtain ⟨⟨e₂, c₂⟩, hread₂, hins⟩ := exists_of_bind_eq_ok hrest
    exact .inr (.inr ⟨result, [e₁, e₂], c₂, nofun, rfl,
      readAll_cons hread₁ (readAll_cons hread₂ rfl), hins⟩)
  | unary op result a =>
    obtain ⟨⟨e, c₁⟩, hread, hins⟩ := exists_of_bind_eq_ok hadd
    exact .inr (.inr ⟨result, [e], c₁, nofun, rfl, readAll_cons hread rfl, hins⟩)
  | subpiece result a amount =>
    obtain ⟨⟨e, c₁⟩, hread, hrest⟩ := exists_of_bind_eq_ok hadd
    dsimp only at hrest
    split at hrest
    next =>
      exact .inr (.inr ⟨result, [e], c₁, nofun, rfl, readAll_cons hread rfl, hrest⟩)
    next => cases hrest
  | cbranch | ret | call | branch | skip =>
    cases hadd
    exact .inl ⟨rfl, rfl⟩
  | ibranch | icall | other => cases hadd

/-- A straight-line operation combines what it reads. -/
theorem addPcode_straightLine {op : PCodeOp} (hop : op.isStraightLine = true)
    (hout : op.output = some x) : c.addPcode op s =
      c.readAll s op.reads >>= fun (es, c₁) => c₁.insertResult x (op.combine X es) := by
  cases op with
  | copy source destination =>
    cases hout
    unfold addPcode PCodeOp.reads readAll
    dsimp only
    cases c.symexprFromOperandRead s source with
    | error p => rfl
    | ok read => rfl
  | unary op result a =>
    cases hout
    unfold addPcode PCodeOp.reads readAll
    dsimp only
    cases c.symexprFromOperandRead s a with
    | error p => rfl
    | ok read => rfl
  | binary op result a b =>
    cases hout
    unfold addPcode PCodeOp.reads readAll readAll
    dsimp only
    cases c.symexprFromOperandRead s a with
    | error p => rfl
    | ok read =>
      dsimp only [bind, Except.bind]
      cases read.2.symexprFromOperandRead s b with
      | error p => rfl
      | ok read' => rfl
  | skip => cases hout
  | load | store | branch | cbranch | ibranch | call | icall | ret | subpiece | other => cases hop

end ConstraintSolver

end FuguexPeripheral
