import FuguexPeripheral.Pcode

/-!
# Symbolic expressions and their solver

The bypass builds expressions with `SymExpr` and hands them to a value solver. Both
live in crates outside this repository, so they are parameters of the model:

* `SymExprApi`: the constructors that the bypass calls, with the width of an
  expression and its value in a model, and their documented meaning as laws. The
  operations are named after p-code operations and mean the same.
* `SolverEnv`: a solver that is sound and complete, and the order in which the entries
  of a hash map are visited, which the language leaves open.

Results:
1. `SymExprApi.satisfies_eq_iff`: the constraint that an expression has a given value.
2. `SolverEnv.preferring`: for every model there is such a solver that answers
   with it whenever it satisfies the constraints.
-/

namespace FuguexPeripheral

/-- A symbolic variable: its name and its width in bits. -/
structure IVar where
  name : String
  bits : Nat
  deriving DecidableEq, Repr

/-- A value for every symbolic variable. -/
abbrev Model := IVar → Nat

/-- The two-argument constructors of `SymExpr` that the bypass uses. -/
inductive SymBin
  | and | boolAnd | or | boolXor | xor
  | shl | shr | signedShr
  | eq | ne | slt | lt
  | sub | add | carry | signedCarry
  deriving DecidableEq, Repr

namespace SymBin

/-- The p-code operation a constructor is named after. -/
def pcode : SymBin → BinOp
  | and => .intAnd
  | boolAnd => .boolAnd
  | or => .intOr
  | boolXor => .boolXor
  | xor => .intXor
  | shl => .intLeftShift
  | shr => .intRightShift
  | signedShr => .intSRightShift
  | eq => .intEq
  | ne => .intNotEq
  | slt => .intSLess
  | lt => .intLess
  | sub => .intSub
  | add => .intAdd
  | carry => .intCarry
  | signedCarry => .intSCarry

def eval (op : SymBin) : Nat → Nat → Nat → Nat :=
  op.pcode.eval

end SymBin

/-- The expression library: its constructors, the width and the value of an
expression, and what the constructors mean. -/
structure SymExprApi where
  Expr : Type
  bits : Expr → Nat
  eval : Model → Expr → Nat
  ivar : IVar → Expr
  /-- `val_sized(value, bits)`; `val` of an integer type is `val_sized` at its width. -/
  val : Nat → Nat → Expr
  binary : SymBin → Expr → Expr → Expr
  not : Expr → Expr
  neg : Expr → Expr
  zeroExtend : Expr → Nat → Expr
  signExtend : Expr → Nat → Expr
  /-- `extract(e, lo, hi)`: the bits from `lo` up to but not including `hi`. -/
  extract : Expr → Nat → Nat → Expr
  extractLow : Expr → Nat → Expr
  eval_lt : ∀ σ e, eval σ e < 2 ^ bits e
  bits_ivar : ∀ x, bits (ivar x) = x.bits
  eval_ivar : ∀ σ x, eval σ (ivar x) = σ x % 2 ^ x.bits
  bits_val : ∀ v n, bits (val v n) = n
  eval_val : ∀ σ v n, eval σ (val v n) = v % 2 ^ n
  bits_binary : ∀ {op a b}, op.pcode.Fits (bits a) (bits b) →
    bits (binary op a b) = op.pcode.resultBits (bits a)
  eval_binary : ∀ {σ op a b}, op.pcode.Fits (bits a) (bits b) →
    eval σ (binary op a b) =
      op.eval (bits a) (eval σ a) (eval σ b) % 2 ^ op.pcode.resultBits (bits a)
  bits_not : ∀ e, bits (not e) = bits e
  eval_not : ∀ σ e, eval σ (not e) = UnOp.intNot.eval (bits e) (bits e) (eval σ e)
  bits_neg : ∀ e, bits (neg e) = bits e
  eval_neg : ∀ σ e, eval σ (neg e) = UnOp.intNeg.eval (bits e) (bits e) (eval σ e)
  bits_zeroExtend : ∀ {e n}, bits e ≤ n → bits (zeroExtend e n) = n
  eval_zeroExtend : ∀ {σ e n}, bits e ≤ n →
    eval σ (zeroExtend e n) = UnOp.intZExt.eval (bits e) n (eval σ e)
  bits_signExtend : ∀ {e n}, bits e ≤ n → bits (signExtend e n) = n
  eval_signExtend : ∀ {σ e n}, bits e ≤ n →
    eval σ (signExtend e n) = UnOp.intSExt.eval (bits e) n (eval σ e)
  bits_extract : ∀ {e lo hi}, lo ≤ hi → hi ≤ bits e → bits (extract e lo hi) = hi - lo
  eval_extract : ∀ {σ e lo hi}, lo ≤ hi → hi ≤ bits e →
    eval σ (extract e lo hi) = eval σ e / 2 ^ lo % 2 ^ (hi - lo)
  bits_extractLow : ∀ {e n}, n ≤ bits e → bits (extractLow e n) = n
  eval_extractLow : ∀ {σ e n}, n ≤ bits e → eval σ (extractLow e n) = eval σ e % 2 ^ n

/-- `to_u64` of a solution: its value when that fits. -/
def toU64 (v : Nat) : Option Nat :=
  if v < 2 ^ 64 then some v else none

theorem toU64_eq_some {v w : Nat} : toU64 v = some w ↔ v = w ∧ w < 2 ^ 64 := by
  unfold toU64
  split
  next hlt =>
    constructor
    · rintro ⟨⟩
      exact ⟨rfl, hlt⟩
    · rintro ⟨rfl, -⟩
      rfl
  next hge =>
    constructor
    · intro h
      cases h
    · rintro ⟨rfl, hlt⟩
      exact absurd hlt hge

/-- The model satisfies the constraints. -/
def SymExprApi.Satisfies (X : SymExprApi) (σ : Model) (constraints : List X.Expr) : Prop :=
  ∀ c ∈ constraints, X.eval σ c ≠ 0

instance (X : SymExprApi) (σ : Model) (constraints : List X.Expr) :
    Decidable (X.Satisfies σ constraints) :=
  inferInstanceAs (Decidable (∀ c ∈ constraints, X.eval σ c ≠ 0))

/-- The constraint that an expression has a given value. -/
theorem SymExprApi.satisfies_eq_iff {X : SymExprApi} (e : X.Expr) (v : Nat) (σ : Model) :
    X.Satisfies σ [X.binary .eq e (X.val v (X.bits e))] ↔ X.eval σ e = v % 2 ^ X.bits e := by
  have hfits : SymBin.eq.pcode.Fits (X.bits e) (X.bits (X.val v (X.bits e))) :=
    ⟨.inr (X.bits_val v (X.bits e)).symm, fun h => nomatch h⟩
  have hval : X.eval σ (X.binary .eq e (X.val v (X.bits e))) =
      ofBool (X.eval σ e == v % 2 ^ X.bits e) % 2 ^ 8 := by
    rw [X.eval_binary hfits, X.eval_val]
    rfl
  constructor
  · intro hsat
    have hne := hsat _ List.mem_cons_self
    rw [hval] at hne
    by_contra hnot
    rw [beq_false_of_ne hnot] at hne
    exact hne rfl
  · intro heq c hc
    rw [List.mem_singleton.mp hc, hval, heq, beq_self_eq_true]
    decide

/-- What the constraint solver gets from outside: a context and `solve`, which
returns the value of an expression in some model of the constraints, or nothing only when
there is none, and the order in which hash maps are walked. -/
structure SolverEnv (X : SymExprApi) where
  Ctx : Type
  newIndependent : Ctx
  solve : Ctx → X.Expr → List X.Expr → Option Nat × Ctx
  varOrder : List (X.Expr × Address) → List (X.Expr × Address)
  resultOrder : List (Address × Option Nat) → List (Address × Option Nat)
  solve_some : ∀ {ctx e constraints v}, (solve ctx e constraints).1 = some v →
    ∃ σ, X.Satisfies σ constraints ∧ X.eval σ e = v
  solve_none : ∀ {ctx e constraints}, (solve ctx e constraints).1 = none →
    ∀ σ, ¬ X.Satisfies σ constraints
  varOrder_perm : ∀ l, (varOrder l).Perm l
  resultOrder_perm : ∀ l, (resultOrder l).Perm l

namespace SolverEnv

variable {X : SymExprApi}

open Classical in
/-- Some model of the constraints, `σ` if it is one. -/
noncomputable def someModel (X : SymExprApi) (σ : Model) (constraints : List X.Expr) :
    Option Model :=
  if X.Satisfies σ constraints then some σ
  else if h : ∃ σ', X.Satisfies σ' constraints then some h.choose
  else none

theorem someModel_of_satisfies {σ : Model} {constraints : List X.Expr}
    (h : X.Satisfies σ constraints) : someModel X σ constraints = some σ :=
  if_pos h

theorem satisfies_of_someModel {σ σ' : Model} {constraints : List X.Expr}
    (h : someModel X σ constraints = some σ') : X.Satisfies σ' constraints := by
  unfold someModel at h
  split at h
  next hσ =>
    cases h
    exact hσ
  · split at h
    next hex =>
      cases h
      exact hex.choose_spec
    · cases h

theorem not_satisfies_of_someModel {σ : Model} {constraints : List X.Expr}
    (h : someModel X σ constraints = none) (σ' : Model) : ¬ X.Satisfies σ' constraints := by
  intro hσ'
  unfold someModel at h
  split at h
  · cases h
  · rw [dif_pos ⟨σ', hσ'⟩] at h
    cases h

/-- A solver that answers with the model `σ` whenever it can. -/
noncomputable def preferring (X : SymExprApi) (σ : Model) : SolverEnv X where
  Ctx := Unit
  newIndependent := ()
  solve := fun _ e constraints => ((someModel X σ constraints).map fun σ' => X.eval σ' e, ())
  varOrder := id
  resultOrder := id
  solve_some := by
    intro _ e constraints v h
    obtain ⟨σ', hσ', rfl⟩ := Option.map_eq_some_iff.mp h
    exact ⟨σ', satisfies_of_someModel hσ', rfl⟩
  solve_none := by
    intro _ e constraints h
    exact not_satisfies_of_someModel (Option.map_eq_none_iff.mp h)
  varOrder_perm := fun l => .refl l
  resultOrder_perm := fun l => .refl l

theorem preferring_solve {σ : Model} (ctx : Unit) (e : X.Expr) {constraints : List X.Expr}
    (h : X.Satisfies σ constraints) :
    ((preferring X σ).solve ctx e constraints).1 = some (X.eval σ e) := by
  show (someModel X σ constraints).map _ = _
  rw [someModel_of_satisfies h]
  rfl

end SolverEnv

end FuguexPeripheral
