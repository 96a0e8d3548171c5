import FuguexPeripheral.Bypass.SymExpr

/-!
# An expression library

The plain reading of `SymExprApi`: bit-vector terms, evaluated in a model. It shows that
the laws asked of the library can be met together, and it can be computed with.
-/

namespace FuguexPeripheral

inductive Term
  | ivar (x : IVar)
  | val (v n : Nat)
  | binary (op : SymBin) (a b : Term)
  | not (a : Term)
  | neg (a : Term)
  | zeroExtend (a : Term) (n : Nat)
  | signExtend (a : Term) (n : Nat)
  | extract (a : Term) (lo hi : Nat)
  deriving DecidableEq, Repr

namespace Term

def bits : Term → Nat
  | .ivar x => x.bits
  | .val _ n => n
  | .binary op a _ => op.pcode.resultBits a.bits
  | .not a => a.bits
  | .neg a => a.bits
  | .zeroExtend _ n => n
  | .signExtend _ n => n
  | .extract _ lo hi => hi - lo

def eval (σ : Model) : Term → Nat
  | .ivar x => σ x % 2 ^ x.bits
  | .val v n => v % 2 ^ n
  | .binary op a b =>
    op.eval a.bits (a.eval σ) (b.eval σ) % 2 ^ op.pcode.resultBits a.bits
  | .not a => UnOp.intNot.eval a.bits a.bits (a.eval σ)
  | .neg a => UnOp.intNeg.eval a.bits a.bits (a.eval σ)
  | .zeroExtend a n => a.eval σ % 2 ^ n
  | .signExtend a n => UnOp.intSExt.eval a.bits n (a.eval σ)
  | .extract a lo hi => a.eval σ / 2 ^ lo % 2 ^ (hi - lo)

theorem eval_lt (σ : Model) (e : Term) : e.eval σ < 2 ^ e.bits := by
  cases e with
  | ivar | val | binary | zeroExtend | extract => exact Nat.mod_lt _ (Nat.two_pow_pos _)
  | not a => exact (~~~ BitVec.ofNat a.bits (a.eval σ)).isLt
  | neg a => exact (- BitVec.ofNat a.bits (a.eval σ)).isLt
  | signExtend a n => exact ((BitVec.ofNat a.bits (a.eval σ)).signExtend n).isLt

end Term

/-- Bit-vector terms are an expression library. -/
def termApi : SymExprApi where
  Expr := Term
  bits := Term.bits
  eval := Term.eval
  ivar := .ivar
  val := .val
  binary := .binary
  not := .not
  neg := .neg
  zeroExtend := .zeroExtend
  signExtend := .signExtend
  extract := .extract
  extractLow := fun e n => .extract e 0 n
  eval_lt := Term.eval_lt
  bits_ivar := fun _ => rfl
  eval_ivar := fun _ _ => rfl
  bits_val := fun _ _ => rfl
  eval_val := fun _ _ _ => rfl
  bits_binary := fun _ => rfl
  eval_binary := fun _ => rfl
  bits_not := fun _ => rfl
  eval_not := fun _ _ => rfl
  bits_neg := fun _ => rfl
  eval_neg := fun _ _ => rfl
  bits_zeroExtend := fun _ => rfl
  eval_zeroExtend := by
    intro σ e n hle
    have hlt := lt_of_lt_of_le (Term.eval_lt σ e) (Nat.pow_le_pow_right (by decide) hle)
    exact Nat.mod_eq_of_lt hlt
  bits_signExtend := fun _ => rfl
  eval_signExtend := fun _ => rfl
  bits_extract := fun _ _ => rfl
  eval_extract := fun _ _ => rfl
  bits_extractLow := fun _ => rfl
  eval_extractLow := by
    intro σ e n _
    show e.eval σ / 2 ^ 0 % 2 ^ (n - 0) = _
    rw [pow_zero, Nat.div_one, Nat.sub_zero]

end FuguexPeripheral
