import FuguexPeripheral.Bypass.Solutions
import FuguexPeripheral.Bypass.Term

/-!
# Solutions that are asked for one by one

`solve` asks for each target on its own, under the same constraint. The solver may answer each
time with another model, so the values fit together only where the constraint does not tie the
targets to each other.

Results:
1. `lookup_scripted`: what a solver returns that answers with given models.
2. `solves_jointly_iff`: the values always fit together if and only if the targets are untied.
3. `not_solves_jointly_sum`: two summands.
-/

namespace FuguexPeripheral

open ByteStore Runs

theorem SolverEnv.perm_id (results : List (Address × Option Nat)) : (id results).Perm results :=
  .refl results

/-- A sound solver that answers its calls with the models of a script, one after another, where
they satisfy the constraints. -/
noncomputable def SolverEnv.scripted (X : SymExprApi) (script : List Model)
    (order : List (X.Expr × Address) → List (X.Expr × Address)) (hperm : ∀ l, (order l).Perm l) :
    SolverEnv X where
  Ctx := List Model
  newIndependent := script
  solve := fun ctx e constraints =>
    ((someModel X (ctx.headD fun _ => 0) constraints).map fun σ => X.eval σ e, ctx.tail)
  varOrder := order
  resultOrder := id
  solve_some := by
    intro ctx e constraints v h
    obtain ⟨σ, hσ, rfl⟩ := Option.map_eq_some_iff.mp h
    exact ⟨σ, satisfies_of_someModel hσ, rfl⟩
  solve_none := by
    intro ctx e constraints h
    exact not_satisfies_of_someModel (Option.map_eq_none_iff.mp h)
  varOrder_perm := hperm
  resultOrder_perm := perm_id

namespace ConstraintSolver

variable {X : SymExprApi} {O : Order}

/-- The model gives the targets the values for their addresses, cut to their widths. -/
def Substitutes (c : ConstraintSolver X) (value : Address → Nat) (σ : Model) : Prop :=
  ∀ t a, (t, a) ∈ c.targets → X.eval σ t = value a % 2 ^ X.bits t

/-- Whatever the solver answers: when `solve` returns a value for every address, the operand has
the expected value at its width once they are substituted. -/
def SolvesJointly (c : ConstraintSolver X) (s : PCodeState O) (operand : Operand)
    (expected : Nat) : Prop :=
  ∀ (env : SolverEnv X) result c' e,
    c.solve env s operand expected = .ok (some result, c') →
    c.symexprFromOperandRead s operand = .ok (e, c') →
    ∀ value : Address → Nat, (∀ a ∈ result, result.lookup a = some (some (value a))) →
      ∀ σ, c.Substitutes value σ → X.eval σ e = expected % 2 ^ X.bits e

/-- In some model in which `e` has the expected value, a target at the address has the value. -/
def Attains (c : ConstraintSolver X) (e : X.Expr) (expected : Nat) (a : Address) (v : Nat) : Prop :=
  v < 2 ^ 64 ∧ ∃ t, (t, a) ∈ c.targets ∧
    ∃ σ, X.eval σ e = expected % 2 ^ X.bits e ∧ X.eval σ t = v

/-- Values that the targets attain one by one give the operand the expected value. -/
def Untied (c : ConstraintSolver X) (s : PCodeState O) (operand : Operand) (expected : Nat) :
    Prop :=
  ∀ e c', c.symexprFromOperandRead s operand = .ok (e, c') →
    ∀ value : Address → Nat, (∀ t a, (t, a) ∈ c.targets → c.Attains e expected a (value a)) →
      ∀ σ, c.Substitutes value σ → X.eval σ e = expected % 2 ^ X.bits e

/-! ## A scripted solver -/

namespace JointLemmas

variable {script : List Model} {order : List (X.Expr × Address) → List (X.Expr × Address)}
  {hperm : ∀ l, (order l).Perm l} {constraint : X.Expr} {models : Address → Model}
  {values : List (X.Expr × Address)} {res : AList fun _ : Address => Option Nat}

theorem solveValues_scripted_cons {t : X.Expr} {a : Address}
    (hsat : X.Satisfies (models a) [constraint]) :
    solveValues (.scripted X script order hperm) constraint ((t, a) :: values)
        (((t, a) :: values).map fun x => models x.2) res =
      solveValues (.scripted X script order hperm) constraint values
        (values.map fun x => models x.2) (res.insert a (toU64 (X.eval (models a) t))) := by
  show solveValues _ _ values _ (res.insert a (((SolverEnv.someModel X (models a)
    [constraint]).map fun σ => X.eval σ t).bind toU64)) = _
  rw [SolverEnv.someModel_of_satisfies hsat]
  rfl

/-- The last targets at an address decide. -/
theorem lookup_scripted {a : Address} {v : Nat}
    (hsat : ∀ t b, (t, b) ∈ values → X.Satisfies (models b) [constraint])
    (hanswer : ∀ t, (t, a) ∈ values → X.eval (models a) t = v) (hlt : v < 2 ^ 64)
    (hsome : res.lookup a = some (some v) ∨ ∃ t, (t, a) ∈ values) :
    (solveValues (.scripted X script order hperm) constraint values
      (values.map fun x => models x.2) res).lookup a = some (some v) := by
  induction values generalizing res with
  | nil =>
    refine hsome.resolve_right ?_
    rintro ⟨t, ht⟩
    cases ht
  | cons x values ih =>
    obtain ⟨t, b⟩ := x
    rw [solveValues_scripted_cons (hsat t b List.mem_cons_self)]
    refine ih (fun t b hmem => hsat t b (List.mem_cons_of_mem _ hmem))
      (fun t hmem => hanswer t (List.mem_cons_of_mem _ hmem)) ?_
    by_cases hsame : a = b
    · subst hsame
      rw [AList.lookup_insert, hanswer t List.mem_cons_self, toU64_eq_some.mpr ⟨rfl, hlt⟩]
      exact .inl rfl
    · rw [AList.lookup_insert_ne hsame]
      refine hsome.imp_right ?_
      rintro ⟨t', ht'⟩
      cases ht' with
      | head => exact absurd rfl hsame
      | tail _ ht' => exact ⟨t', ht'⟩

theorem lookup_scripted_append {values' : List (X.Expr × Address)} {a : Address} {v : Nat}
    (hsat : ∀ t b, (t, b) ∈ values ++ values' → X.Satisfies (models b) [constraint])
    (hanswer : ∀ t, (t, a) ∈ values' → X.eval (models a) t = v) (hlt : v < 2 ^ 64)
    (hmem : ∃ t, (t, a) ∈ values') :
    (solveValues (.scripted X script order hperm) constraint (values ++ values')
      ((values ++ values').map fun x => models x.2) res).lookup a = some (some v) := by
  induction values generalizing res with
  | nil => exact lookup_scripted hsat hanswer hlt (.inr hmem)
  | cons x values ih =>
    obtain ⟨t, b⟩ := x
    rw [List.cons_append, solveValues_scripted_cons (hsat t b List.mem_cons_self)]
    exact ih fun t b hmem => hsat t b (List.mem_cons_of_mem _ hmem)

open Classical in
/-- The solver may return any values that the targets attain one by one: it answers each time with
a model for the address, and visits the targets that attain the values last. -/
theorem exists_returns {c c' : ConstraintSolver X} {s : PCodeState O} {operand : Operand}
    {expected : Nat} {e : X.Expr} {value : Address → Nat}
    (hread : c.symexprFromOperandRead s operand = .ok (e, c')) (htargets : c.targets ≠ [])
    (hattains : ∀ t a, (t, a) ∈ c.targets → c.Attains e expected a (value a)) :
    ∃ (env : SolverEnv X) (result : AList fun _ : Address => Option Nat),
      c.solve env s operand expected = .ok (some result, c') ∧
      ∀ a ∈ result, result.lookup a = some (some (value a)) := by
  have hchoice : ∀ a, ∃ t, ∃ σ : Model, (∃ t', (t', a) ∈ c.targets) → (t, a) ∈ c.targets ∧
      X.eval σ e = expected % 2 ^ X.bits e ∧ X.eval σ t = value a := by
    intro a
    by_cases hmem : ∃ t', (t', a) ∈ c.targets
    · obtain ⟨t', ht'⟩ := hmem
      obtain ⟨-, t, ht, σ, hσ⟩ := hattains t' a ht'
      exact ⟨t, σ, fun _ => ⟨ht, hσ⟩⟩
    · exact ⟨e, fun _ => 0, fun h => absurd h hmem⟩
  choose chosen models hmodels using hchoice
  let other : X.Expr × Address → Bool := fun x => decide (x.1 ≠ chosen x.2)
  let order : List (X.Expr × Address) → List (X.Expr × Address) := fun l =>
    l.filter other ++ l.filter fun x => !other x
  have hperm : ∀ l, (order l).Perm l := List.filter_append_perm other
  have hsat : ∀ t b, (t, b) ∈ c.targets →
      X.Satisfies (models b) [X.binary .eq e (X.val expected (X.bits e))] := fun t b hmem =>
    (X.satisfies_eq_iff e expected (models b)).mpr (hmodels b ⟨t, hmem⟩).2.1
  refine ⟨.scripted X ((order c.targets).map fun x => models x.2) order hperm, _,
    solve_of_read _ _ hread htargets, fun a ha => ?_⟩
  obtain ⟨t, ht⟩ : ∃ t, (t, a) ∈ c.targets :=
    (solve_keys (solve_of_read _ _ hread htargets)).mp ha
  obtain ⟨hchosen, -, hvalue⟩ := hmodels a ⟨t, ht⟩
  show (solveValues (.scripted X _ order hperm) _ (c.targets.filter other ++
    c.targets.filter fun x => !other x) _ ∅).lookup a = _
  refine lookup_scripted_append (fun t b hmem => hsat t b ((hperm c.targets).mem_iff.mp hmem))
    (fun t' ht' => ?_) (hattains t a ht).1 ⟨chosen a, List.mem_filter.mpr ⟨hchosen, ?_⟩⟩
  · have hsame : t' = chosen a := by simpa [other] using (List.mem_filter.mp ht').2
    rw [hsame, hvalue]
  · simp [other]

end JointLemmas

open JointLemmas

/-- Whatever the solver answers, the values that `solve` returns fit together if and only if there
is no target, or the targets are untied. -/
theorem solves_jointly_iff {c : ConstraintSolver X} {s : PCodeState O} {operand : Operand}
    {expected : Nat} :
    c.SolvesJointly s operand expected ↔ c.targets = [] ∨ c.Untied s operand expected := by
  constructor
  · intro hjoint
    by_cases hnil : c.targets = []
    · exact .inl hnil
    · refine .inr fun e c' hread value hattains σ hσ => ?_
      obtain ⟨env, result, hsolve, hvalues⟩ := exists_returns hread hnil hattains
      exact hjoint env result c' e hsolve hread value hvalues σ hσ
  · rintro (hnil | huntied) env result c' e hsolve hread value hvalues σ hσ
    · obtain ⟨-, -, ⟨-, hnone⟩ | ⟨hne, -⟩⟩ := solve_cases hsolve
      · cases hnone
      · exact absurd hnil hne
    · refine huntied e c' hread value (fun t a ht => ?_) σ hσ
      have hvalue := hvalues a ((solve_keys hsolve).mpr ⟨t, ht⟩)
      obtain ⟨e', t', σ', hread', ht', hlt, heval, hvalue'⟩ := solve_sound hsolve hvalue
      cases hread.symm.trans hread'
      exact ⟨hlt, t', ht', σ', heval, hvalue'⟩

/-! ## Two summands -/

/-- `z := *r0 + *r1`, with `r0 = 16` and `r1 = 32`. -/
def sumState : PCodeState .le :=
  (PCodeState.setValue { spaces := fun _ _ => 0, programCounter := 0 } (.register "r0" 0 4)
    16).setValue (.register "r1" 4 4) 32

def sumCalls : List (PCodeState .le × PCodeOp) :=
  [(sumState, .load (.register "r0" 0 4) (.register "r2" 8 4)),
    (sumState, .load (.register "r1" 4 4) (.register "r3" 12 4)),
    (sumState, .binary .intAdd (.register "z" 16 4) (.register "r2" 8 4) (.register "r3" 12 4))]

def sumSolver : ConstraintSolver termApi :=
  (tracePartial (fun c x => c.addPcode x.2 x.1) (new.setDefaultVariables fun _ => none) sumCalls).2

/-- For a sum of 5 the solver may return 5 for either summand. -/
theorem not_solves_jointly_sum :
    (∃ tr, Built (O := .le) (fun _ => none) tr sumSolver) ∧
      ¬ sumSolver.SolvesJointly sumState (.register "z" 16 4) 5 := by
  refine ⟨⟨_, run_tracePartial _ _ sumCalls⟩, fun hjoint => ?_⟩
  let x : IVar := ⟨"r0", 32⟩
  let y : IVar := ⟨"r1", 32⟩
  let sum : Term := .binary .add (.extract (.ivar x) 0 32) (.extract (.ivar y) 0 32)
  let value : Address → Nat := fun _ => 5
  have htargets : sumSolver.targets = [(.ivar y, 32), (.ivar x, 16)] := by rfl
  have hread : sumSolver.symexprFromOperandRead sumState (.register "z" 16 4) =
      .ok (sum, sumSolver) := by
    rfl
  have hattains : ∀ t a, (t, a) ∈ sumSolver.targets → sumSolver.Attains sum 5 a (value a) := by
    intro t a hmem
    refine ⟨by decide, t, hmem, ?_⟩
    rw [htargets] at hmem
    rcases List.mem_pair.mp hmem with heq | heq
    · cases heq
      exact ⟨fun z => if z = y then 5 else 0, by decide +kernel, by decide +kernel⟩
    · cases heq
      exact ⟨fun z => if z = x then 5 else 0, by decide +kernel, by decide +kernel⟩
  obtain ⟨env, result, hsolve, hvalues⟩ := exists_returns hread
    (by rw [htargets]; exact List.cons_ne_nil _ _) hattains
  have hsum := hjoint env result sumSolver sum hsolve hread value hvalues (fun _ => 5) ?_
  · exact absurd hsum (by decide +kernel)
  · intro t a hmem
    rw [htargets] at hmem
    rcases List.mem_pair.mp hmem with heq | heq
    · cases heq
      decide +kernel
    · cases heq
      decide +kernel

end ConstraintSolver

end FuguexPeripheral
