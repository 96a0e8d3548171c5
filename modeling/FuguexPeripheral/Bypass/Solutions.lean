import FuguexPeripheral.Runs
import FuguexPeripheral.Bypass.Listing

/-!
# What the solver returns

`solve` asks for every target on its own, and keeps the last answer for each address.

Results:
1. `solve_cases`: a call that does not panic.
2. `mem_solveValues`, `solve_keys`: the results are for the addresses of the targets.
3. `lookup_solveValues`: a result is an answer of the solver for a target at its address.
-/

namespace FuguexPeripheral

open ByteStore Fallible

namespace ConstraintSolver

variable {X : SymExprApi} {O : Order} {env : SolverEnv X} {c c' : ConstraintSolver X}
  {s : PCodeState O} {constraint : X.Expr} {operand : Operand} {expected : Nat} {a : Address}

/-- One call of `add_pcode`, in a state of the emulator. -/
def AddStep (c : ConstraintSolver X) (call : PCodeState O × PCodeOp) (c' : ConstraintSolver X) :
    Prop :=
  c.addPcode call.2 call.1 = .ok c'

/-- The calls of `add_pcode` on a new solver with the default variables `vars`. -/
abbrev Built (vars : String → Option Nat)
    (tr : List (ConstraintSolver X × (PCodeState O × PCodeOp))) (c : ConstraintSolver X) : Prop :=
  Runs.Run AddStep (new.setDefaultVariables vars) tr c

/-- The expressions to solve, with the addresses that they were loaded from. -/
def targets (c : ConstraintSolver X) : List (X.Expr × Address) :=
  c.varToSolve.entries.map Sigma.snd

/-- Each target gets an entry for its address. -/
theorem mem_solveValues {values : List (X.Expr × Address)} {ctx : env.Ctx}
    {res : AList (fun _ : Address => Option Nat)} :
    a ∈ solveValues env constraint values ctx res ↔ a ∈ res ∨ ∃ e, (e, a) ∈ values := by
  induction values generalizing ctx res with
  | nil =>
    refine (or_iff_left ?_).symm
    rintro ⟨e, he⟩
    cases he
  | cons value values ih =>
    obtain ⟨e, a'⟩ := value
    unfold solveValues
    rw [ih, AList.mem_insert]
    constructor
    · rintro ((rfl | hmem) | ⟨e', he'⟩)
      · exact .inr ⟨e, List.mem_cons_self⟩
      · exact .inl hmem
      · exact .inr ⟨e', List.mem_cons_of_mem _ he'⟩
    · rintro (hmem | ⟨e', he'⟩)
      · exact .inl (.inr hmem)
      · cases he' with
        | head => exact .inl (.inl rfl)
        | tail _ he' => exact .inr ⟨e', he'⟩

/-- A value among the results was there before, or it is what the solver answered for a
target at its address. -/
theorem lookup_solveValues {values : List (X.Expr × Address)} {ctx : env.Ctx}
    {res : AList (fun _ : Address => Option Nat)} {v : Nat}
    (hv : (solveValues env constraint values ctx res).lookup a = some (some v)) :
    res.lookup a = some (some v) ∨
    ∃ e ctx', (e, a) ∈ values ∧ (env.solve ctx' e [constraint]).1 = some v ∧ v < 2 ^ 64 := by
  induction values generalizing ctx res with
  | nil => exact .inl hv
  | cons value values ih =>
    obtain ⟨e, a'⟩ := value
    rcases ih hv with hins | ⟨e', ctx', hmem, hsolve⟩
    · by_cases hsame : a = a'
      · subst hsame
        rw [AList.lookup_insert] at hins
        obtain ⟨w, hw, hfits⟩ := Option.bind_eq_some_iff.mp (Option.some.inj hins)
        obtain ⟨rfl, hlt⟩ := toU64_eq_some.mp hfits
        exact .inr ⟨e, ctx, List.mem_cons_self, hw, hlt⟩
      · rw [AList.lookup_insert_ne hsame] at hins
        exact .inl hins
    · exact .inr ⟨e', ctx', List.mem_cons_of_mem _ hmem, hsolve⟩

/-- A call of `solve` reads the operand; with a target it returns the results, and without
one nothing. -/
theorem solve_cases {res : Option (AList (fun _ : Address => Option Nat))}
    (hsolve : c.solve env s operand expected = .ok (res, c')) :
    ∃ e, c.symexprFromOperandRead s operand = .ok (e, c') ∧
      (c.targets = [] ∧ res = none ∨
        c.targets ≠ [] ∧ res = some (solveValues env (X.binary .eq e (X.val expected (X.bits e)))
          (env.varOrder c.targets) env.newIndependent ∅)) := by
  obtain ⟨⟨e, c₁⟩, hread, hrest⟩ := exists_of_bind_eq_ok hsolve
  have htargets : c₁.varToSolve.entries.map Sigma.snd = c.targets := by
    rw [read_varToSolve hread]
    rfl
  dsimp only at hrest
  rw [htargets] at hrest
  cases hrest
  refine ⟨e, hread, ?_⟩
  cases hnil : c.targets with
  | nil =>
    refine .inl ⟨rfl, ?_⟩
    rw [List.perm_nil.mp (env.varOrder_perm [])]
    rfl
  | cons target rest =>
    refine .inr ⟨List.cons_ne_nil _ _, if_neg fun hempty => ?_⟩
    have hmem : target.2 ∈ solveValues env (X.binary .eq e (X.val expected (X.bits e)))
        (env.varOrder (target :: rest)) env.newIndependent ∅ :=
      mem_solveValues.mpr (.inr ⟨target.1, (env.varOrder_perm _).mem_iff.mpr List.mem_cons_self⟩)
    have hkeys := List.mem_map.mp hmem
    rw [List.isEmpty_iff.mp hempty] at hkeys
    obtain ⟨entry, hentry, -⟩ := hkeys
    cases hentry

theorem mem_targets {e : X.Expr} :
    (e, a) ∈ c.targets ↔ ∃ key, ⟨key, (e, a)⟩ ∈ c.varToSolve.entries := by
  constructor
  · intro hmem
    obtain ⟨⟨key, v⟩, hkey, rfl⟩ := List.mem_map.mp hmem
    exact ⟨key, hkey⟩
  · rintro ⟨key, hkey⟩
    exact List.mem_map.mpr ⟨_, hkey, rfl⟩

theorem solve_of_read (env : SolverEnv X) (expected : Nat) {e : X.Expr}
    (hread : c.symexprFromOperandRead s operand = .ok (e, c')) (htargets : c.targets ≠ []) :
    c.solve env s operand expected =
      .ok (some (solveValues env (X.binary .eq e (X.val expected (X.bits e)))
        (env.varOrder c.targets) env.newIndependent ∅), c') := by
  obtain ⟨res, hsolve⟩ : ∃ res, c.solve env s operand expected = .ok (res, c') := by
    unfold solve
    rw [hread]
    exact ⟨_, rfl⟩
  obtain ⟨e', hread', ⟨hnil, -⟩ | ⟨-, rfl⟩⟩ := solve_cases hsolve
  · exact absurd hnil htargets
  · cases hread.symm.trans hread'
    exact hsolve

/-- The results are for the addresses of the targets. -/
theorem solve_keys {result : AList (fun _ : Address => Option Nat)}
    (hsolve : c.solve env s operand expected = .ok (some result, c')) :
    a ∈ result ↔ ∃ e, (e, a) ∈ c.targets := by
  obtain ⟨e, -, ⟨-, hnone⟩ | ⟨-, hsome⟩⟩ := solve_cases hsolve
  · cases hnone
  · rw [Option.some.inj hsome, mem_solveValues]
    refine (or_iff_right (AList.notMem_empty _)).trans (exists_congr fun e' => ?_)
    exact (env.varOrder_perm _).mem_iff

/-- A value that `solve` returns is one that a target at its address has in a model of the
constraint. -/
theorem solve_sound {result : AList (fun _ : Address => Option Nat)} {v : Nat}
    (hsolve : c.solve env s operand expected = .ok (some result, c'))
    (hv : result.lookup a = some (some v)) :
    ∃ e t, ∃ σ : Model, c.symexprFromOperandRead s operand = .ok (e, c') ∧ (t, a) ∈ c.targets ∧
      v < 2 ^ 64 ∧ X.eval σ e = expected % 2 ^ X.bits e ∧ X.eval σ t = v := by
  obtain ⟨e, hread, ⟨-, hnone⟩ | ⟨-, hsome⟩⟩ := solve_cases hsolve
  · cases hnone
  · rw [Option.some.inj hsome] at hv
    rcases lookup_solveValues hv with hempty | ⟨t, ctx, hmem, hanswer, hlt⟩
    · cases hempty
    · obtain ⟨σ, hsat, heval⟩ := env.solve_some hanswer
      exact ⟨e, t, σ, hread, (env.varOrder_perm _).mem_iff.mp hmem, hlt,
        (X.satisfies_eq_iff e expected σ).mp hsat, heval⟩

end ConstraintSolver

end FuguexPeripheral
