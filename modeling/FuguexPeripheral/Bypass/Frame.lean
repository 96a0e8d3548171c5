import FuguexPeripheral.Bypass.Reads
import FuguexPeripheral.Bypass.Term

/-!
# What an operation leaves alone

Besides its output an operation changes what an operand reads as in three ways: a load makes its
pointer a new variable, a store makes its pointer the stored value, and the first read of a key
decides the width that all its operands are captured with.

Results:
1. `read_kept_iff`: when an operand with another key than the output's reads as before.
2. `not_read_kept_pointer`: a load through a register.
-/

namespace FuguexPeripheral

open ByteStore Fallible Variables PCodeOp

/-- The key of the output: none for stores, branches, calls, returns and `Skip`. -/
def PCodeOp.outputKey : PCodeOp → Option String
  | .load _ destination | .copy _ destination => genVariableName destination
  | .binary _ result _ _ | .unary _ result _ | .subpiece result _ _ => genVariableName result
  | _ => none

namespace ConstraintSolver

variable {X : SymExprApi} {O : Order} {c c' : ConstraintSolver X} {s t : PCodeState O}
  {op : PCodeOp} {o : Operand} {k : String}

/-- The first of the operands that has the key `k` reads in `s` as `o` does in `t`. -/
def FirstReadsAs (c : ConstraintSolver X) (s t : PCodeState O) (o : Operand) (k : String)
    (xs : List Operand) : Prop :=
  ∀ x ∈ xs.find? fun x => genVariableName x = some k, c.readExpr s x = c.readExpr t o

/-- The operation does not touch what `o` reads as in `t`, where `k` is the key of `o`: `o` is not
the pointer of a load or a store, unless it reads as the new expression already; and the first
input with its key reads as `o` does. -/
def ReadKept (c : ConstraintSolver X) (s t : PCodeState O) (o : Operand) (k : String) :
    PCodeOp → Prop
  | .load source _ => genVariableName source = some k → c.readExpr t o = .ok (c.freshVar k source)
  | .store source destination =>
    if genVariableName destination = some k then c.readExpr s source = c.readExpr t o
    else c.FirstReadsAs s t o k [source]
  | op => c.FirstReadsAs s t o k op.inputs

namespace FrameLemmas

/-- After the inputs are read, an operand reads as before when the first input with its key reads
as it does. -/
theorem readAll_kept_iff {c₁ : ConstraintSolver X} {xs : List Operand} {es : List X.Expr}
    (hkey : genVariableName o = some k) (hread : c.readAll s xs = .ok (es, c₁)) :
    c₁.readExpr t o = c.readExpr t o ↔ c.FirstReadsAs s t o k xs := by
  unfold FirstReadsAs
  rw [readExpr_readAll hkey hread]
  cases xs.find? fun x => genVariableName x = some k with
  | none => exact iff_of_true rfl nofun
  | some x =>
    constructor
    · rintro h _ ⟨⟩
      exact h
    · exact fun h => h x rfl

end FrameLemmas

open FrameLemmas

/-- An operand whose key is not the key of the output reads as before, in any state, if and only if
the operation does not touch it. -/
theorem read_kept_iff (hadd : c.addPcode op s = .ok c') (hkey : genVariableName o = some k)
    (hout : op.outputKey ≠ some k) :
    c'.readExpr t o = c.readExpr t o ↔ c.ReadKept s t o k op := by
  rcases addPcode_cases hadd with ⟨hnone, rfl⟩ |
    ⟨source, destination, key, c₁, c₂, rfl, hsource, hins, hlist, hdefaults, hresult⟩ |
    ⟨r, es, c₁, hload, hlisted, hread, hresult⟩
  · cases op with
    | load | store | copy | binary | unary | subpiece => cases hnone
    | branch | cbranch | ibranch | call | icall | ret | skip | other =>
      exact iff_of_true rfl nofun
  · have hdestination : genVariableName destination ≠ some k := hout
    rw [readExpr_insertResult hkey hresult, if_neg hdestination,
      readExpr_congr hkey (congrFun hlist k) hdefaults, readExpr_insert hkey hins]
    unfold ReadKept
    split
    next hsame =>
      cases hsource.symm.trans hsame
      exact ⟨fun h _ => h.symm, fun h => (h hsame).symm⟩
    next hne => exact iff_of_true rfl fun hsame => absurd hsame hne
  · rw [readExpr_insertResult hkey hresult]
    cases op with
    | store source destination =>
      cases hlisted
      obtain ⟨⟨e, c₂⟩, hx, hrest⟩ := exists_of_bind_eq_ok hread
      cases hrest
      have hkept : c.ReadKept s t o k (.store source r) =
        if genVariableName r = some k then c.readExpr s source = c.readExpr t o
          else c.FirstReadsAs s t o k [source] := rfl
      rw [hkept, readExpr_of_read hx]
      split
      next hsame => exact Iff.rfl
      next hne => exact readAll_kept_iff hkey hread
    | load source destination => exact absurd rfl (hload source destination)
    | copy | binary | unary | subpiece =>
      cases hlisted
      have hr : genVariableName r ≠ some k := hout
      rw [if_neg hr]
      exact readAll_kept_iff hkey hread
    | branch | cbranch | ibranch | call | icall | ret | skip | other => cases hlisted

/-! ## A load through a register -/

/-- A state in which every register is zero. -/
def zeroState : PCodeState .le :=
  { spaces := fun _ _ => 0, programCounter := 0 }

/-- A copy leaves a third register alone. -/
theorem read_kept_iff_copy :
    ∃ c', (new : ConstraintSolver termApi).addPcode
        (.copy (.register "r0" 0 4) (.register "r1" 4 4)) zeroState = .ok c' ∧
      (c'.readExpr zeroState (.register "r2" 8 4) =
          (new : ConstraintSolver termApi).readExpr zeroState (.register "r2" 8 4) ↔
        (new : ConstraintSolver termApi).ReadKept zeroState zeroState
          (.register "r2" 8 4) "r2"
          (.copy (.register "r0" 0 4) (.register "r1" 4 4))) :=
  ⟨_, rfl, read_kept_iff rfl rfl (by decide)⟩

/-- A load makes its pointer a new variable. -/
theorem not_read_kept_pointer :
    ∃ c', (new : ConstraintSolver termApi).addPcode
        (.load (.register "r0" 0 4) (.register "r1" 4 4)) zeroState = .ok c' ∧
      (PCodeOp.load (.register "r0" 0 4) (.register "r1" 4 4)).outputKey ≠
        genVariableName (.register "r0" 0 4) ∧
      c'.readExpr zeroState (.register "r0" 0 4) ≠
        (new : ConstraintSolver termApi).readExpr zeroState (.register "r0" 0 4) := by
  refine ⟨_, rfl, by decide, ?_⟩
  have hbefore : (new : ConstraintSolver termApi).readExpr zeroState (.register "r0" 0 4) =
      .ok (Term.val 0 32) := by
    rfl
  rw [hbefore]
  intro h
  cases h

end ConstraintSolver

end FuguexPeripheral
