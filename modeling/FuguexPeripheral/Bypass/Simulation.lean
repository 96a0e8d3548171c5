import FuguexPeripheral.Bypass.Reads
import FuguexPeripheral.Bypass.Steps

/-!
# The solver follows the emulator

The solver's variable list simulates a run of the trace, but not of quite the trace
that the emulator runs: registers are captured at their first read, cut down to one
byte, and one operation gets another meaning. The invariant relates the list to the
states of that other run, its view, for every model.

Results:
1. `Simulates.read`, `Simulates.readAll`: a read gives the value of the operand in the view.
2. `Simulates.write`: an insertion follows a write.
3. `Simulates.combine_straightLine`: the expression of a result means what the operation does.
4. `Simulates.step`: `add_pcode` follows the execution of an operation.
-/

namespace FuguexPeripheral

open ByteStore PCodeOp Variables ConstraintSolver

/-- What the constructor that `add_pcode` chooses for an operation means. -/
def BinOp.symMeaning (op : BinOp) : Nat → Nat → Nat → Nat :=
  op.sym.eval

/-- The solver's constructors mean the operations they stand for, but for one. -/
theorem BinOp.symMeaning_eq_eval {op : BinOp} (hop : op ≠ .boolOr) : op.symMeaning = op.eval := by
  cases op with
  | boolOr => exact absurd rfl hop
  | intAnd | boolAnd | intOr | boolXor | intXor | intLeftShift | intRightShift | intSRightShift
  | intEq | intNotEq | intSLess | intLess | intSub | intAdd | intCarry | intSCarry => rfl

/-- Every key stands for one operand, so it is used at one size, and operands with
different keys do not overlap. -/
structure Keyed (operands : List Operand) : Prop where
  one : ∀ o ∈ operands, ∀ o' ∈ operands, o.isConstant = false →
    genVariableName o = genVariableName o' → o = o'
  apart : ∀ o ∈ operands, ∀ o' ∈ operands, genVariableName o ≠ genVariableName o' →
    o.NoOverlap o'

instance (operands : List Operand) : Decidable (Keyed operands) :=
  decidable_of_iff
    ((∀ o ∈ operands, ∀ o' ∈ operands, o.isConstant = false →
      genVariableName o = genVariableName o' → o = o') ∧
      ∀ o ∈ operands, ∀ o' ∈ operands, genVariableName o ≠ genVariableName o' → o.NoOverlap o')
    ⟨fun h => ⟨h.1, h.2⟩, fun h => ⟨h.1, h.2⟩⟩

/-- The registers have sizes that the solver can capture. -/
def RegisterSizes (operands : List Operand) : Prop :=
  ∀ o ∈ operands, o.isRegister = true → o.size = 1 ∨ o.size = 2 ∨ o.size = 4 ∨ o.size = 8

instance (operands : List Operand) : Decidable (RegisterSizes operands) :=
  inferInstanceAs (Decidable (∀ o ∈ operands, o.isRegister = true →
    o.size = 1 ∨ o.size = 2 ∨ o.size = 4 ∨ o.size = 8))

/-- The variable list agrees with the states of the view: a listed operand has, in every
model, the value of its current expression there; a register that is not listed has
the byte that the solver would capture; and what is written is listed. -/
structure Simulates {X : SymExprApi} {O : Order} (operands hidden written : List Operand)
    (c : ConstraintSolver X) (s : PCodeState O) (view : Model → PCodeState O) : Prop where
  noDefaults : ∀ key, c.defaultVariables key = none
  current : ∀ o ∈ operands, o ∉ hidden → ∀ key, genVariableName o = some key →
    ∀ v, c.varList key = some v →
      X.bits v.getSymExpr = 8 * o.size ∧ ∀ σ, X.eval σ v.getSymExpr = (view σ).value o
  captured : ∀ o ∈ operands, o.isRegister = true → ∀ key, genVariableName o = some key →
    c.varList key = none → ∀ σ, (view σ).value o = (s.getOperandU8 o).toNat
  listed : ∀ o ∈ written, ∀ key, genVariableName o = some key → c.varList key ≠ none

theorem Keyed.toApart {operands : List Operand} (hk : Keyed operands) : Apart operands := by
  intro o ho o' ho' hne
  cases hc : o.isConstant with
  | true =>
    intro l hl
    rw [Operand.location_eq_none.mpr hc] at hl
    cases hl
  | false => exact hk.apart o ho o' ho' fun heq => hne (hk.one o ho o' ho' hc heq)

namespace Simulates

variable {X : SymExprApi} {O : Order} {operands hidden written : List Operand}
  {c c' : ConstraintSolver X} {s : PCodeState O} {view : Model → PCodeState O} {o : Operand}

/-- The program counter plays no role. -/
theorem setPc (hsim : Simulates operands hidden written c s view) (pc : Address) :
    Simulates operands hidden written c (s.setPc pc) view := by
  refine ⟨hsim.noDefaults, hsim.current, ?_, hsim.listed⟩
  intro o ho hreg key hkey hnone σ
  rw [PCodeState.getOperandU8_setPc]
  exact hsim.captured o ho hreg key hkey hnone σ

/-- Listing an operand at its value in the view keeps the simulation. -/
theorem setVar {key : String} {v : Variables X} (hk : Keyed operands) (ho : o ∈ operands)
    (hsim : Simulates operands hidden written c s view) (hkey : genVariableName o = some key)
    (hbits : X.bits v.getSymExpr = 8 * o.size)
    (heval : ∀ σ, X.eval σ v.getSymExpr = (view σ).value o) :
    Simulates operands hidden written (c.setVar key v) s view := by
  refine ⟨hsim.noDefaults, ?_, ?_, ?_⟩
  · intro o' ho' hhid key' hkey' w hw
    by_cases hsame : key' = key
    · have heq : o = o' :=
        hk.one o ho o' ho' (isConstant_of_key hkey) (by rw [hkey, hkey', hsame])
      rw [hsame, varList_setVar_self] at hw
      cases hw
      rw [← heq]
      exact ⟨hbits, heval⟩
    · rw [varList_setVar_of_ne hsame] at hw
      exact hsim.current o' ho' hhid key' hkey' w hw
  · intro o' ho' hreg key' hkey' hnone
    exact hsim.captured o' ho' hreg key' hkey' (varList_setVar_eq_none.mp hnone).2
  · intro o' ho' key' hkey' hnone
    exact hsim.listed o' ho' key' hkey' (varList_setVar_eq_none.mp hnone).2

/-! ## Reads -/

/-- A byte fits a register. -/
theorem byte_mod {n : Nat} (hn : n = 1 ∨ n = 2 ∨ n = 4 ∨ n = 8) (b : UInt8) :
    b.toNat % 2 ^ (8 * n) = b.toNat := by
  refine Nat.mod_eq_of_lt (lt_of_lt_of_le b.toNat_lt ?_)
  exact Nat.pow_le_pow_right (by decide) (by omega)

/-- A read gives the value of the operand in the view. -/
theorem read (hk : Keyed operands) (hsizes : RegisterSizes operands) (ho : o ∈ operands)
    (hread : Readable hidden written o) (hsim : Simulates operands hidden written c s view) :
    ∃ e c', c.symexprFromOperandRead s o = .ok (e, c') ∧ X.bits e = 8 * o.size ∧
      (∀ σ, X.eval σ e = (view σ).value o) ∧
      Simulates operands hidden written c' s view := by
  by_cases hconst : o.isConstant = true
  · cases o with
    | constant value size =>
      refine ⟨X.val value (8 * size), c, rfl, X.bits_val _ _, ?_, hsim⟩
      intro σ
      rw [X.eval_val, PCodeState.value, PCodeState.operandBytes, decode_encode]
    | address | register | «variable» => cases hconst
  · have hc : o.isConstant = false := Bool.eq_false_iff.mpr hconst
    obtain ⟨key, hkey⟩ := genVariableName_isSome hc
    cases hv : c.varList key with
    | some v =>
      obtain ⟨hbits, heval⟩ := hsim.current o ho hread.1 key hkey v hv
      refine ⟨v.getSymExpr, c, ?_, hbits, heval, hsim⟩
      rw [symexprFromOperandRead_of_key c s hkey]
      exact varListGet_listed hkey hv
    | none =>
      rcases hread.2 with hconst' | hreg | hmem
      · exact absurd hconst' hconst
      · -- the register is captured here, at its value in a state that has moved on
        have hsize := hsizes o ho hreg
        obtain ⟨v, hget, hexpr⟩ := read_capture (s := s) hkey hv (.inr ⟨hreg, hsize⟩)
        have hbyte : c.capturedValue s key o = (s.getOperandU8 o).toNat := by
          unfold capturedValue
          rw [hsim.noDefaults]
        have hbits : X.bits v.getSymExpr = 8 * o.size := by rw [hexpr, X.bits_val]
        have heval : ∀ σ, X.eval σ v.getSymExpr = (view σ).value o := by
          intro σ
          rw [hexpr, X.eval_val, hbyte, hsim.captured o ho hreg key hkey hv, byte_mod hsize]
        exact ⟨_, _, hget, hbits, heval, setVar hk ho hsim hkey hbits heval⟩
      · exact absurd hv (hsim.listed o hmem key hkey)

/-- Operands that are read one after another. -/
theorem readAll {os : List Operand} (hk : Keyed operands) (hsizes : RegisterSizes operands)
    (hread : ∀ o ∈ os, o ∈ operands ∧ Readable hidden written o)
    (hsim : Simulates operands hidden written c s view) :
    ∃ es c', c.readAll s os = .ok (es, c') ∧
      List.Forall₂ (fun o e => X.bits e = 8 * o.size ∧ ∀ σ, X.eval σ e = (view σ).value o) os es ∧
      Simulates operands hidden written c' s view := by
  induction os generalizing c with
  | nil => exact ⟨[], c, rfl, .nil, hsim⟩
  | cons o os ih =>
    obtain ⟨ho, hro⟩ := hread o List.mem_cons_self
    obtain ⟨e, c₁, hread₁, hbits, heval, hsim₁⟩ := read hk hsizes ho hro hsim
    obtain ⟨es, c₂, hread₂, hall, hsim₂⟩ :=
      ih (fun o' ho' => hread o' (List.mem_cons_of_mem _ ho')) hsim₁
    exact ⟨e :: es, c₂, readAll_cons hread₁ hread₂, .cons ⟨hbits, heval⟩ hall, hsim₂⟩

/-! ## Writes -/

/-- An insertion follows a write of the same value. Afterwards the operand need not be
hidden any more. -/
theorem write {e : X.Expr} {w : Model → Nat} {hidden' : List Operand} (hk : Keyed operands)
    (ho : o ∈ operands) (hc : o.isConstant = false)
    (hsim : Simulates operands hidden written c s view)
    (hhidden : ∀ o' ∈ hidden, o' = o ∨ o' ∈ hidden')
    (hbits : X.bits e = 8 * o.size)
    (heval : ∀ σ, X.eval σ e = w σ % 2 ^ (8 * o.size)) (x : Nat) :
    ∃ c', c.insertResult o e = .ok c' ∧
      Simulates operands hidden' (o :: written) c' (s.setValue o x)
        fun σ => (view σ).setValue o (w σ) := by
  obtain ⟨key, hkey⟩ := genVariableName_isSome hc
  obtain ⟨c', hins⟩ := insertResult_ok hkey c e
  obtain ⟨key', v, hkey', hv, rfl⟩ := varListInsert_cases (insertResult_cases hins)
  cases hkey.symm.trans hkey'
  refine ⟨c.setVar key v, hins, hsim.noDefaults, ?_, ?_, ?_⟩
  · intro o' ho' hhid key' hkey' u hu
    by_cases hsame : o = o'
    · rw [← hsame] at hkey' ⊢
      rw [hkey] at hkey'
      cases hkey'
      rw [varList_setVar_self] at hu
      cases hu
      rw [hv]
      refine ⟨hbits, fun σ => ?_⟩
      rw [heval, PCodeState.value_setValue_same hc]
    · have hne : key' ≠ key := fun heq =>
        hsame (hk.one o ho o' ho' hc (by rw [hkey, hkey', heq]))
      rw [varList_setVar_of_ne hne] at hu
      have hhid' : o' ∉ hidden := fun hmem =>
        (hhidden o' hmem).elim (fun heq => hsame heq.symm) hhid
      obtain ⟨hbits', heval'⟩ := hsim.current o' ho' hhid' key' hkey' u hu
      refine ⟨hbits', fun σ => ?_⟩
      rw [heval', PCodeState.value_setValue_of_noOverlap (hk.toApart o ho o' ho' hsame)]
  · intro o' ho' hreg key' hkey' hnone σ
    obtain ⟨hne, hnone⟩ := varList_setVar_eq_none.mp hnone
    have hapart : o.NoOverlap o' := by
      refine hk.apart o ho o' ho' ?_
      rw [hkey, hkey']
      exact fun heq => hne (Option.some.inj heq).symm
    rw [PCodeState.value_setValue_of_noOverlap hapart,
      PCodeState.getOperandU8_setValue_of_noOverlap hapart]
    exact hsim.captured o' ho' hreg key' hkey' hnone σ
  · intro o' ho' key' hkey' hnone
    obtain ⟨hne, hnone⟩ := varList_setVar_eq_none.mp hnone
    rcases List.mem_cons.mp ho' with heq | hmem
    · rw [heq, hkey] at hkey'
      exact hne (Option.some.inj hkey').symm
    · exact hsim.listed o' hmem key' hkey' hnone

/-! ## Operations -/

/-- The constructor fits where the operation does, with a result of the same width. -/
theorem sym_fits {op : BinOp} {w w' : Nat} (hfits : op.Fits w w') :
    op.sym.pcode.Fits w w' ∧ op.sym.pcode.resultBits w = op.resultBits w := by
  cases op with
  | boolOr => exact ⟨⟨hfits.1, fun h => nomatch h⟩, hfits.2 rfl⟩
  | intAnd | boolAnd | intOr | boolXor | intXor | intLeftShift | intRightShift | intSRightShift
  | intEq | intNotEq | intSLess | intLess | intSub | intAdd | intCarry | intSCarry =>
    exact ⟨hfits, rfl⟩

theorem bits_sym {op : UnOp} {e : X.Expr} {w : Nat} (hfits : op.Fits (X.bits e) w) :
    X.bits (op.sym X e w) = w := by
  cases op with
  | intNot => exact (X.bits_not e).trans hfits.symm
  | intNeg => exact (X.bits_neg e).trans hfits.symm
  | intZExt => exact X.bits_zeroExtend hfits
  | intSExt => exact X.bits_signExtend hfits

theorem eval_sym {op : UnOp} {e : X.Expr} {w : Nat} (hfits : op.Fits (X.bits e) w) (σ : Model) :
    X.eval σ (op.sym X e w) = op.eval (X.bits e) w (X.eval σ e) % 2 ^ w := by
  have hval : X.eval σ (op.sym X e w) = op.eval (X.bits e) w (X.eval σ e) := by
    cases op with
    | intNot => rw [show w = X.bits e from hfits]; exact X.eval_not σ e
    | intNeg => rw [show w = X.bits e from hfits]; exact X.eval_neg σ e
    | intZExt => exact X.eval_zeroExtend hfits
    | intSExt => exact X.eval_signExtend hfits
  have hlt := X.eval_lt σ (op.sym X e w)
  rw [bits_sym hfits] at hlt
  rw [← hval, Nat.mod_eq_of_lt hlt]

/-- What a straight-line operation makes of expressions for its inputs is an expression for its
result. -/
theorem combine_straightLine {op : PCodeOp} {r : Operand} {value : Model → Operand → Nat}
    {es : List X.Expr} (hop : op.isStraightLine = true) (hout : op.output = some r)
    (hsized : op.WellSized)
    (hreads : List.Forall₂ (fun o e => X.bits e = 8 * o.size ∧ ∀ σ, X.eval σ e = value σ o)
      op.reads es) :
    X.bits (op.combine X es) = 8 * r.size ∧
      ∀ σ, X.eval σ (op.combine X es) =
        op.compute BinOp.symMeaning (op.reads.map (value σ)) % 2 ^ (8 * r.size) := by
  cases op with
  | copy source destination =>
    cases hout
    obtain - | ⟨⟨hbits, heval⟩, - | _⟩ := hreads
    have hsize : source.size = r.size := hsized
    rw [hsize] at hbits
    refine ⟨hbits, fun σ => (heval σ).trans ?_⟩
    rw [← hbits]
    exact (Nat.mod_eq_of_lt (heval σ ▸ X.eval_lt σ _)).symm
  | binary op result a b =>
    cases hout
    obtain - | ⟨⟨hbits₁, heval₁⟩, - | ⟨⟨hbits₂, heval₂⟩, - | _⟩⟩ := hreads
    obtain ⟨hfits, hresult⟩ : op.Fits (8 * a.size) (8 * b.size) ∧
      8 * r.size = op.resultBits (8 * a.size) := hsized
    obtain ⟨hfits', hwidth⟩ := sym_fits hfits
    rw [← hbits₁, ← hbits₂] at hfits'
    rw [← hresult, ← hbits₁] at hwidth
    refine ⟨(X.bits_binary hfits').trans hwidth, fun σ => ?_⟩
    refine (X.eval_binary hfits').trans ?_
    rw [hwidth, heval₁, heval₂, hbits₁]
    rfl
  | unary op result a =>
    cases hout
    obtain - | ⟨⟨hbits, heval⟩, - | _⟩ := hreads
    have hfits : op.Fits (8 * a.size) (8 * r.size) := hsized
    rw [← hbits] at hfits
    refine ⟨bits_sym hfits, fun σ => (eval_sym hfits σ).trans ?_⟩
    rw [heval, hbits]
    rfl
  | skip => cases hout
  | load | store | branch | cbranch | ibranch | call | icall | ret | subpiece | other => cases hop

/-- `add_pcode` follows the execution of an operation. -/
theorem step {op : PCodeOp} (hk : Keyed operands) (hsizes : RegisterSizes operands)
    (hop : Admissible operands hidden written op)
    (hsim : Simulates operands hidden written c s view) :
    ∃ c', c.addPcode op s = .ok c' ∧
      Simulates operands hidden (op.output.toList ++ written) c' (op.exec s)
        fun σ => op.execWith BinOp.symMeaning (view σ) := by
  cases hout : op.output with
  | none =>
    rw [eq_skip hop.straight hout]
    exact ⟨c, rfl, hsim⟩
  | some r =>
    obtain ⟨hr, hrc⟩ := hop.writes r hout
    obtain ⟨es, c₁, hread, hall, hsim₁⟩ := readAll hk hsizes hop.reads hsim
    obtain ⟨hbits, heval⟩ := combine_straightLine hop.straight hout hop.sized hall
    obtain ⟨c₂, hins, hsim₂⟩ := write hk hr hrc hsim₁ (fun _ => .inr) hbits heval
      (op.compute BinOp.eval (op.reads.map s.value))
    refine ⟨c₂, ?_, ?_⟩
    · rw [addPcode_straightLine hop.straight hout, hread]
      exact hins
    · unfold exec
      simp only [execWith_straightLine hop.straight, hout]
      exact hsim₂

end Simulates

end FuguexPeripheral
