import FuguexPeripheral.Bypass.Reads
import FuguexPeripheral.Bypass.Term

/-!
# Subpiece

`Subpiece` discards the low bytes of its operand. The solver keeps as many bits as there should
be, but the low ones.

Results:
1. `subpiece_denotes_iff`: when the result is the operand shifted and cut.
2. `subpiece_bits_ivar_iff`: for a variable, when nothing is discarded.
3. `not_subpiece_denotes_high`: the high byte of two.
-/

namespace FuguexPeripheral

open ByteStore Fallible Variables PCodeOp

namespace ConstraintSolver

variable {X : SymExprApi} {O : Order} {c c' c₁ : ConstraintSolver X} {s : PCodeState O}
  {operand result : Operand} {k n : Nat} {e : X.Expr}

/-- After the operation the result denotes the operand, whose value is `e`, without its `k` low
bytes, cut to the bytes that remain and to the size of the result. -/
def DenotesSubpiece (c : ConstraintSolver X) (s : PCodeState O) (result operand : Operand)
    (k n : Nat) (e : X.Expr) : Prop :=
  ∃ c' e', c.addPcode (.subpiece result operand (.constant k n)) s = .ok c' ∧
    c'.readExpr s result = .ok e' ∧
    ∀ σ, X.eval σ e' = (X.eval σ e >>> (8 * k)) % 2 ^ (8 * min (operand.size - k) result.size)

namespace SubpieceLemmas

/-- Two numbers have the same low bits. -/
theorem mod_two_pow_eq_iff {a b w : Nat} :
    a % 2 ^ w = b % 2 ^ w ↔ ∀ i, i < w → a.testBit i = b.testBit i := by
  constructor
  · intro h i hi
    have hbit := congrArg (fun x => Nat.testBit x i) h
    simpa [Nat.testBit_mod_two_pow, hi] using hbit
  · intro h
    apply Nat.eq_of_testBit_eq
    intro i
    rw [Nat.testBit_mod_two_pow, Nat.testBit_mod_two_pow]
    by_cases hi : i < w
    · rw [h i hi]
    · simp [hi]

/-- The number of bits that are kept, for sizes whose bits fit a word. -/
theorem subpieceBits_eq (hsize : 8 * operand.size < 2 ^ 32) (hk : k < operand.size) :
    subpieceBits operand result k = 8 * min (operand.size - k) result.size := by
  have hk' : k % 2 ^ 64 = k := Nat.mod_eq_of_lt (by omega)
  have hsub : (2 ^ 64 + operand.size - k) % 2 ^ 64 = operand.size - k := by omega
  have hmul : (operand.size - k) * 8 % 2 ^ 64 = (operand.size - k) * 8 :=
    Nat.mod_eq_of_lt (by omega)
  unfold subpieceBits
  dsimp only
  rw [hk', hsub, hmul]
  omega

/-- The operation succeeds, and the result reads as the low bits of the operand. -/
theorem addPcode_subpiece (hread : c.symexprFromOperandRead s operand = .ok (e, c₁))
    (hresult : result.isConstant = false) :
    ∃ c', c.addPcode (.subpiece result operand (.constant k n)) s = .ok c' ∧
      c'.readExpr s result = .ok (X.extract e 0 (subpieceBits operand result k)) := by
  obtain ⟨key, hkey⟩ := genVariableName_isSome hresult
  obtain ⟨c', hins⟩ := insertResult_ok hkey c₁ (X.extract e 0 (subpieceBits operand result k))
  refine ⟨c', ?_, ?_⟩
  · unfold addPcode
    dsimp only
    rw [hread]
    exact hins
  · rw [readExpr_insertResult hkey hins, if_pos hkey]

end SubpieceLemmas

open SubpieceLemmas

/-- The result is right if and only if, in every model, the bits that are kept are the same as
those that should be. -/
theorem subpiece_denotes_iff (hread : c.symexprFromOperandRead s operand = .ok (e, c₁))
    (hbits : X.bits e = 8 * operand.size) (hwidth : X.bits e < 2 ^ 32)
    (hresult : result.isConstant = false) (hk : k < operand.size) :
    c.DenotesSubpiece s result operand k n e ↔
      ∀ σ i, i < 8 * min (operand.size - k) result.size →
        (X.eval σ e).testBit i = (X.eval σ e).testBit (8 * k + i) := by
  obtain ⟨c', hadd, hexpr⟩ := addPcode_subpiece (k := k) (n := n) hread hresult
  rw [subpieceBits_eq (hbits ▸ hwidth) hk] at hexpr
  have heval : ∀ σ, X.eval σ (X.extract e 0 (8 * min (operand.size - k) result.size)) =
      X.eval σ e % 2 ^ (8 * min (operand.size - k) result.size) := by
    intro σ
    rw [X.eval_extract (Nat.zero_le _) (by omega), pow_zero, Nat.div_one, Nat.sub_zero]
  -- the kept bits of a model against those that should be kept
  have hmodel : ∀ σ, X.eval σ (X.extract e 0 (8 * min (operand.size - k) result.size)) =
        (X.eval σ e >>> (8 * k)) % 2 ^ (8 * min (operand.size - k) result.size) ↔
      ∀ i, i < 8 * min (operand.size - k) result.size →
        (X.eval σ e).testBit i = (X.eval σ e).testBit (8 * k + i) := by
    intro σ
    rw [heval, mod_two_pow_eq_iff]
    refine forall₂_congr fun i _ => ?_
    rw [Nat.testBit_shiftRight]
  constructor
  · rintro ⟨c'', e', hadd', hexpr', hdenotes⟩ σ
    cases hadd.symm.trans hadd'
    cases hexpr.symm.trans hexpr'
    exact (hmodel σ).mp (hdenotes σ)
  · exact fun hbits' => ⟨c', _, hadd, hexpr, fun σ => (hmodel σ).mpr (hbits' σ)⟩

/-- A variable takes every value, so for it nothing may be discarded. -/
theorem subpiece_bits_ivar_iff {x : IVar} {w : Nat} (hw : 0 < w) (hx : 8 * k < x.bits) :
    (∀ σ i, i < w → (X.eval σ (X.ivar x)).testBit i = (X.eval σ (X.ivar x)).testBit (8 * k + i)) ↔
      k = 0 := by
  constructor
  · intro hall
    have hbit := hall (fun _ => 2 ^ (8 * k)) 0 hw
    rw [X.eval_ivar, Nat.mod_eq_of_lt (Nat.pow_lt_pow_right (by decide) hx), Nat.add_zero,
      Nat.testBit_two_pow_self, Nat.testBit_two_pow, decide_eq_true_iff] at hbit
    omega
  · rintro rfl σ i -
    rw [Nat.mul_zero, Nat.zero_add]

/-! ## The high byte of two -/

namespace SubpieceLemmas

def startState : PCodeState .le :=
  { spaces := fun _ _ => 0, programCounter := 0 }

theorem read_constant : (new : ConstraintSolver termApi).symexprFromOperandRead startState
    (.constant 0x1234 2) = .ok (Term.val 0x1234 16, new) :=
  rfl

end SubpieceLemmas

/-- Nothing is discarded of 0x1234. -/
theorem subpiece_denotes_iff_low :
    (new : ConstraintSolver termApi).DenotesSubpiece startState (.register "r1" 4 1)
        (.constant 0x1234 2) 0 4 (Term.val 0x1234 16) ↔
      ∀ σ i, i < 8 * min ((Operand.constant 0x1234 2).size - 0) (Operand.register "r1" 4 1).size →
        (termApi.eval σ (Term.val 0x1234 16)).testBit i =
          (termApi.eval σ (Term.val 0x1234 16)).testBit (8 * 0 + i) :=
  subpiece_denotes_iff read_constant rfl (by decide) rfl (by decide)

/-- Of 0x1234 without its low byte the solver keeps 0x34. -/
theorem not_subpiece_denotes_high :
    ¬ (new : ConstraintSolver termApi).DenotesSubpiece startState (.register "r1" 4 1)
      (.constant 0x1234 2) 1 4 (Term.val 0x1234 16) := by
  rintro ⟨c', e', hadd, hexpr, hdenotes⟩
  have hresult : (Operand.register "r1" 4 1).isConstant = false := rfl
  obtain ⟨c'', hadd', hexpr'⟩ := addPcode_subpiece (k := 1) (n := 4) read_constant hresult
  cases hadd.symm.trans hadd'
  cases hexpr.symm.trans hexpr'
  exact absurd (hdenotes fun _ => 0) (by decide +kernel)

end ConstraintSolver

end FuguexPeripheral
