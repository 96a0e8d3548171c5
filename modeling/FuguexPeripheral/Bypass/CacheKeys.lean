import FuguexPeripheral.Bypass.Targets

/-!
# Whose solutions the cache holds

A solution is cached under the address of the last load, whichever address it is for. So the
cache is right where the solver has no other target, or nothing to return.

Results:
1. `stepAnyOrder_iff`: then the order in which the results are walked makes no difference.
2. `cache_own_solutions`: in a run of such steps every cached value was returned for its own
   address.
3. `cache_other_solution`: with a load from RAM in the loop, the cached value is one for RAM.
-/

namespace FuguexPeripheral

open ByteStore Fallible Runs ConstraintSolver

variable {X : SymExprApi} {O : Order}

/-- The same solver, with the results of `solve` walked in another order. -/
def SolverEnv.withOrder (env : SolverEnv X)
    (order : List (Address × Option Nat) → List (Address × Option Nat))
    (hperm : ∀ l, (order l).Perm l) : SolverEnv X :=
  { env with resultOrder := order, resultOrder_perm := hperm }

/-- The condition of the call has the expected value in no model. -/
def SolveCall.Unsatisfiable (call : SolveCall X) (s : PCodeState O) : Prop :=
  ∀ e c', call.solver.symexprFromOperandRead s call.condition = .ok (e, c') →
    ∀ σ, X.eval σ e ≠ call.expectedValue % 2 ^ X.bits e

namespace DummyPeripheral

variable {env : SolverEnv X} {h h' : DummyPeripheral X} {s s' : PCodeState O}

/-- One event, with the results of `solve` walked in any order. -/
def StepAnyOrder (env : SolverEnv X) (h : DummyPeripheral X) (e : PeripheralEvent O)
    (h' : DummyPeripheral X) : Prop :=
  ∃ order hperm, Step (env.withOrder order hperm) h e h'

/-- If the event solves, and caches what it solves, then the solver's targets are all at the
address of the load, or it has nothing to return. -/
def SolvesAtLoad (h : DummyPeripheral X) : PeripheralEvent O → Prop
  | .operation s op => ∀ call ∈ h.solveCall s op, h.solvingResultsCacheEnable = true →
      (∀ target ∈ call.solver.targets, target.2 = h.lastMemReadEvent.readAddress) ∨
        call.Unsatisfiable s
  | _ => True

/-! ## One step -/

namespace CacheKeyLemmas

theorem writeSolutions_of_none {solutions : List (Address × Option Nat)}
    (hnone : ∀ kv ∈ solutions, kv.2 = none) (hs : DummyPeripheral X × PCodeState O) :
    solutions.foldl writeSolution hs = hs := by
  induction solutions generalizing hs with
  | nil => rfl
  | cons kv solutions ih =>
    have hhead : writeSolution hs kv = hs := by
      unfold writeSolution
      rw [hnone kv List.mem_cons_self]
    rw [List.foldl_cons, hhead]
    exact ih (fun kv' hkv' => hnone kv' (List.mem_cons_of_mem _ hkv')) hs

/-- What is cached was cached before, or it is one of the solutions, under the address of the
load. -/
theorem writeSolutions_results {solutions : List (Address × Option Nat)}
    {hs : DummyPeripheral X × PCodeState O} {A : Address} {r : SolvingResult}
    (hr : (solutions.foldl writeSolution hs).1.solvingResults A = some r) :
    hs.1.solvingResults A = some r ∨
    hs.1.solvingResultsCacheEnable = true ∧ A = hs.1.lastMemReadEvent.readAddress ∧
      ∃ kv ∈ solutions, kv.2 = some r.value := by
  induction solutions generalizing hs with
  | nil => exact .inl hr
  | cons kv solutions ih =>
    obtain ⟨results, hresults⟩ := writeSolutions_hook [kv] hs
    have hfields : (writeSolution hs kv).1 = { hs.1 with solvingResults := results } := hresults
    rcases ih hr with hcached | ⟨henabled, hload, kv', hkv', hvalue⟩
    · unfold writeSolution at hcached
      split at hcached
      next => exact .inl hcached
      next v hv =>
        dsimp only at hcached
        split at hcached
        next henabled =>
          by_cases hsame : A = hs.1.lastMemReadEvent.readAddress
          · unfold cacheResult at hcached
            dsimp only at hcached
            rw [hsame, Function.update_self] at hcached
            cases hcached
            exact .inr ⟨henabled, hsame, kv, List.mem_cons_self, hv⟩
          · unfold cacheResult at hcached
            dsimp only at hcached
            rw [Function.update_of_ne hsame] at hcached
            exact .inl hcached
        next => exact .inl hcached
    · rw [hfields] at henabled hload
      exact .inr ⟨henabled, hload, kv', List.mem_cons_of_mem _ hkv', hvalue⟩

theorem writeSolutions_disabled {solutions : List (Address × Option Nat)}
    {hs : DummyPeripheral X × PCodeState O} (hoff : hs.1.solvingResultsCacheEnable = false) :
    (solutions.foldl writeSolution hs).1 = hs.1 := by
  induction solutions generalizing hs with
  | nil => rfl
  | cons kv solutions ih =>
    have hhead : (writeSolution hs kv).1 = hs.1 := by
      unfold writeSolution
      split
      next => rfl
      next =>
        dsimp only
        rw [if_neg (ne_true_of_eq_false hoff)]
    rw [List.foldl_cons, ih (by rw [hhead]; exact hoff), hhead]

/-- A map with one key has one entry. -/
theorem length_entries_le_one {m : AList fun _ : Address => Option Nat} {A : Address}
    (hkeys : ∀ a ∈ m, a = A) : m.entries.length ≤ 1 := by
  have hnodup : m.keys.Nodup := m.nodupKeys
  rw [List.eq_replicate_of_mem hkeys, List.nodup_replicate] at hnodup
  rwa [← List.length_map (f := Sigma.fst)]

theorem eq_of_perm_of_short {α : Type} {l l' : List α} (hperm : l'.Perm l)
    (hshort : l.length ≤ 1) : l' = l := by
  match l, hshort with
  | [], _ => exact List.perm_nil.mp hperm
  | [x], _ => exact List.perm_singleton.mp hperm

theorem solve_withOrder {order hperm} (c : ConstraintSolver X) (operand : Operand)
    (expected : Nat) :
    c.solve (env.withOrder order hperm) s operand expected = c.solve env s operand expected := by
  have hvalues : ∀ constraint values (ctx : env.Ctx) res,
      solveValues (env.withOrder order hperm) constraint values ctx res =
        solveValues env constraint values ctx res := by
    intro constraint values
    induction values with
    | nil => exact fun _ _ => rfl
    | cons value values ih => exact fun _ _ => ih _ _
  unfold solve
  refine congrArg _ (funext fun x => ?_)
  exact congrArg (fun res : AList (fun _ : Address => Option Nat) =>
    (pure (if res.entries.isEmpty then none else some res, x.2) : Except Panic _))
    (hvalues _ _ env.newIndependent ∅)

variable {destination condition : Operand} {solver : ConstraintSolver X}
  {result : AList fun _ : Address => Option Nat} {A : Address} {v : Nat}

/-- A value that is returned and cached is for the address of the load. -/
theorem key_eq_of_solvesAtLoad
    (hown : h.SolvesAtLoad (.operation s (.cbranch destination condition)))
    (hcall : h.checkLoop s destination condition =
      (h.stop, some ⟨h.solver, condition, h.expectedValue⟩))
    (hsolve : h.solver.solve env s condition h.expectedValue = .ok (some result, solver))
    (henabled : h.solvingResultsCacheEnable = true) (hv : ⟨A, some v⟩ ∈ result.entries) :
    A = h.lastMemReadEvent.readAddress := by
  have hcall' : h.solveCall s (.cbranch destination condition) =
      some ⟨h.solver, condition, h.expectedValue⟩ := congrArg Prod.snd hcall
  rcases hown _ hcall' henabled with htargets | hunsat
  · obtain ⟨e, hmem⟩ := (solve_keys hsolve).mp (List.mem_keys_of_mem hv)
    exact htargets _ hmem
  · obtain ⟨e, t, σ, hread, -, -, heval, -⟩ := solve_sound hsolve (AList.mem_lookup_iff.mpr hv)
    exact absurd heval (hunsat e solver hread σ)

/-- What the results leave in the peripheral does not depend on the order they are walked in. -/
theorem writeSolutions_anyOrder {l l' : List (Address × Option Nat)}
    (hown : h.SolvesAtLoad (.operation s (.cbranch destination condition)))
    (hcall : h.checkLoop s destination condition =
      (h.stop, some ⟨h.solver, condition, h.expectedValue⟩))
    (hsolve : h.solver.solve env s condition h.expectedValue = .ok (some result, solver))
    (hl : l.Perm (result.entries.map fun e => (e.1, e.2))) (hperm : l'.Perm l) :
    (l'.foldl writeSolution ({ h.stop with solver := solver }, s)).1 =
      (l.foldl writeSolution ({ h.stop with solver := solver }, s)).1 := by
  cases henabled : h.solvingResultsCacheEnable with
  | false => rw [writeSolutions_disabled henabled, writeSolutions_disabled henabled]
  | true =>
    have hcall' : h.solveCall s (.cbranch destination condition) =
        some ⟨h.solver, condition, h.expectedValue⟩ := congrArg Prod.snd hcall
    rcases hown _ hcall' henabled with htargets | hunsat
    · -- there is one result at most
      have hshort : (result.entries.map fun e => (e.1, e.2)).length ≤ 1 := by
        rw [List.length_map]
        refine length_entries_le_one (A := h.lastMemReadEvent.readAddress) fun a ha => ?_
        obtain ⟨e, hmem⟩ := (solve_keys hsolve).mp ha
        exact htargets _ hmem
      rw [eq_of_perm_of_short (hperm.trans hl) hshort, eq_of_perm_of_short hl hshort]
    · have hnone : ∀ kv ∈ l, kv.2 = none := by
        intro kv hkv
        obtain ⟨entry, hentry, rfl⟩ := List.mem_map.mp (hl.mem_iff.mp hkv)
        obtain ⟨a, value⟩ := entry
        cases value with
        | none => rfl
        | some v =>
          obtain ⟨e, t, σ, hread, -, -, heval, -⟩ :=
            solve_sound hsolve (AList.mem_lookup_iff.mpr hentry)
          exact absurd heval (hunsat e solver hread σ)
      rw [writeSolutions_of_none hnone,
        writeSolutions_of_none fun kv hkv => hnone kv (hperm.mem_iff.mp hkv)]

/-- After a conditional branch the solver is left as it is. -/
theorem track_cbranch (h : DummyPeripheral X) (s : PCodeState O) (destination condition : Operand) :
    h.track s (.cbranch destination condition) = .ok h := by
  unfold track
  split
  next => rfl
  next => rfl

theorem hookOperationStep_cbranch (env : SolverEnv X) (h : DummyPeripheral X) (s : PCodeState O)
    (destination condition : Operand) :
    (h.hookOperationStep env s (.cbranch destination condition)).map Prod.fst =
      ((h.onCBranch env s destination condition).map Prod.fst).map
        fun h₁ => { h₁ with pcodeCounter := h₁.pcodeCounter + 1 } := by
  unfold hookOperationStep
  rw [show h.onOperation env s (.cbranch destination condition) =
    h.onCBranch env s destination condition from rfl]
  cases h.onCBranch env s destination condition with
  | error p => rfl
  | ok hs =>
    dsimp only
    rw [track_cbranch]
    rfl

theorem onCBranch_withOrder {order hperm}
    (hown : h.SolvesAtLoad (.operation s (.cbranch destination condition))) :
    (h.onCBranch (env.withOrder order hperm) s destination condition).map Prod.fst =
      (h.onCBranch env s destination condition).map Prod.fst := by
  unfold onCBranch
  split
  next => rfl
  next h₁ call hcall =>
    obtain ⟨rfl, rfl⟩ := checkLoop_solves hcall
    rw [solve_withOrder]
    split
    next => rfl
    next => rfl
    next result solver hsolve =>
      have hl := env.resultOrder_perm (result.entries.map fun e => (e.1, e.2))
      have hsame := writeSolutions_anyOrder hown hcall hsolve hl ((hperm _).trans hl.symm)
      exact congrArg Except.ok hsame

end CacheKeyLemmas

open CacheKeyLemmas

/-- Where the event solves at its load, the order in which the results are walked makes no
difference to the peripheral. -/
theorem apply_withOrder {order hperm} {e : PeripheralEvent O} (hown : h.SolvesAtLoad e) :
    e.apply (env.withOrder order hperm) h = e.apply env h := by
  cases e with
  | operation s op =>
    cases op with
    | cbranch destination condition =>
      show (h.hookOperationStep _ s _).map Prod.fst = (h.hookOperationStep _ s _).map Prod.fst
      rw [hookOperationStep_cbranch, hookOperationStep_cbranch, onCBranch_withOrder hown]
    | load | store | copy | branch | ibranch | call | icall | ret | subpiece | binary | unary
    | skip | other => rfl
  | architectural | addAddressRange | enableCache | addDefaultReg => rfl

theorem stepAnyOrder_iff {e : PeripheralEvent O} (hown : h.SolvesAtLoad e) :
    StepAnyOrder env h e h' ↔ Step env h e h' := by
  unfold StepAnyOrder Step
  constructor
  · rintro ⟨order, hperm, hstep⟩
    rwa [apply_withOrder hown] at hstep
  · intro hstep
    refine ⟨env.resultOrder, env.resultOrder_perm, ?_⟩
    rwa [apply_withOrder hown]

/-! ## Runs -/

namespace CacheKeyLemmas

/-- An event keeps the cached results, unless it is a branch that solves. -/
theorem step_results {e : PeripheralEvent O} (hstep : Step env h e h') :
    h'.solvingResults = h.solvingResults ∨
    ∃ s destination condition result solver, e = .operation s (.cbranch destination condition) ∧
      h.checkLoop s destination condition =
        (h.stop, some ⟨h.solver, condition, h.expectedValue⟩) ∧
      h.solver.solve env s condition h.expectedValue = .ok (some result, solver) ∧
      h'.solvingResults = ((env.resultOrder (result.entries.map fun e => (e.1, e.2))).foldl
        writeSolution ({ h.stop with solver := solver }, s)).1.solvingResults := by
  cases e with
  | operation s op =>
    obtain ⟨s', hstep⟩ := step_operation hstep
    obtain ⟨h₁, solver, harm, -, rfl⟩ := hookOperationStep_cases hstep
    cases op with
    | load source destination =>
      rcases onLoad_cases harm with ⟨-, rfl, -⟩ | ⟨-, r, n, -, -, rfl, -⟩ | ⟨-, -, rfl, -⟩
      · exact .inl rfl
      · exact .inl rfl
      · exact .inl rfl
    | store source destination =>
      cases harm
      unfold onStore
      split
      next => exact .inl rfl
      next => exact .inl rfl
    | cbranch destination condition =>
      rcases onCBranch_cases harm with ⟨-, -, rfl⟩ | ⟨hcall, result, c', hsolve, hfold⟩
      · exact .inl (checkLoop_fields h s destination condition).2.2.2
      · cases result with
        | none =>
          obtain ⟨rfl, -⟩ := Prod.mk.inj hfold
          exact .inl rfl
        | some result =>
          obtain ⟨rfl, -⟩ := Prod.mk.inj hfold
          exact .inr ⟨s, destination, condition, result, c', rfl, hcall, hsolve, rfl⟩
    | icall destination =>
      cases harm
      exact .inl (countFunCall_fields h 1).2.2.2
    | ret destination =>
      cases harm
      exact .inl (countFunCall_fields h (-1)).2.2.2
    | copy | branch | ibranch | call | subpiece | binary | unary | skip | other =>
      cases harm
      exact .inl rfl
  | architectural | addAddressRange | enableCache | addDefaultReg =>
    cases hstep
    exact .inl rfl

/-- A value that a step caches was returned for its own address. -/
theorem solved_of_step {e : PeripheralEvent O} (hown : h.SolvesAtLoad e) (hstep : Step env h e h')
    {A : Address} {r : SolvingResult} (hr : h'.solvingResults A = some r) :
    h.solvingResults A = some r ∨
    ∃ s op, e = .operation s op ∧ h.solved env s op A = some r.value := by
  rcases step_results hstep with heq | ⟨s, destination, condition, result, solver, rfl, hcall,
    hsolve, heq⟩
  · exact .inl (heq ▸ hr)
  · rw [heq] at hr
    rcases writeSolutions_results hr with hcached | ⟨henabled, hload, kv, hkv, hvalue⟩
    · exact .inl hcached
    · obtain ⟨⟨a, value⟩, hentry, rfl⟩ :=
        List.mem_map.mp ((env.resultOrder_perm _).mem_iff.mp hkv)
      dsimp only at hvalue
      subst hvalue
      have hkey := key_eq_of_solvesAtLoad hown hcall hsolve henabled hentry
      have hload' : A = h.lastMemReadEvent.readAddress := hload
      rw [hkey, ← hload'] at hentry
      refine .inr ⟨s, _, rfl, ?_⟩
      have hcall' : h.solveCall s (.cbranch destination condition) =
          some ⟨h.solver, condition, h.expectedValue⟩ := congrArg Prod.snd hcall
      unfold solved
      rw [hcall']
      unfold solution
      dsimp only
      rw [hsolve]
      dsimp only
      rw [AList.mem_lookup_iff.mpr hentry]
      rfl

end CacheKeyLemmas

open CacheKeyLemmas

/-- In every run whose events solve at their loads, whatever order the results are walked in,
each cached value is one that the solver returned for its own address, and the order makes no
difference to what is cached. -/
theorem cache_own_solutions {tr : List (DummyPeripheral X × PeripheralEvent O)}
    (hr : Run (StepAnyOrder env) new tr h) (hown : ∀ x ∈ tr, x.1.SolvesAtLoad x.2) :
    (∀ A r, h.solvingResults A = some r →
      ∃ q s op, (q, .operation s op) ∈ tr ∧ q.solved env s op A = some r.value) ∧
    ∀ tr' h', Run (StepAnyOrder env) new tr' h' → tr'.map Prod.snd = tr.map Prod.snd →
      h'.solvingResults = h.solvingResults := by
  constructor
  · have hrun : History env tr h :=
      hr.imp_mem fun q e r hm hstep => (stepAnyOrder_iff (hown (q, e) hm)).mp hstep
    refine hrun.history (fun past q => (∀ x ∈ past, x.1.SolvesAtLoad x.2) → ∀ A r,
      q.solvingResults A = some r → ∃ p s op, (p, .operation s op) ∈ past ∧
        p.solved env s op A = some r.value) ?_ ?_ hown
    · intro _ A r hcached
      cases hcached
    · intro past q e q' _ ih hstep hall A r hcached
      rcases solved_of_step (hall (q, e) (List.mem_append_right _ List.mem_cons_self)) hstep
        hcached with hold | ⟨s, op, rfl, hsolved⟩
      · obtain ⟨p, s, op, hmem, hsolved⟩ :=
          ih (fun x hx => hall x (List.mem_append_left _ hx)) A r hold
        exact ⟨p, s, op, List.mem_append_left _ hmem, hsolved⟩
      · exact ⟨q, s, op, List.mem_append_right _ List.mem_cons_self, hsolved⟩
  · intro tr' h' hr' hevents
    have hdet : ∀ q e, (q, e) ∈ tr → ∀ r r', StepAnyOrder env q e r → StepAnyOrder env q e r' →
        r' = r := by
      intro q e hm r r' hstep hstep'
      rw [stepAnyOrder_iff (hown (q, e) hm)] at hstep hstep'
      exact Except.ok.inj (hstep'.symm.trans hstep)
    rw [(hr.unique hdet hr' hevents).2]

/-! ## A load from RAM -/

namespace CacheKeyLemmas

open TargetLemmas

/-- The loop on the status register, with the cache enabled, and with the load from RAM left
out or in. -/
def cachingEvents (ram : List (PeripheralEvent .le)) : List (PeripheralEvent .le) :=
  .enableCache true :: targetEvents ram

/-- The status is 1 and RAM is 5. -/
noncomputable def cachingEnv : SolverEnv termApi :=
  .preferring termApi fun x => if x.name = "r0" then 1 else 5

noncomputable def cachingTrace (env : SolverEnv termApi) (ram : List (PeripheralEvent .le)) :
    List (DummyPeripheral termApi × PeripheralEvent .le) × DummyPeripheral termApi :=
  tracePartial (fun h e => PeripheralEvent.apply env h e) new (cachingEvents ram)

theorem run_cachingTrace (order hperm) (ram : List (PeripheralEvent .le)) :
    Run (StepAnyOrder cachingEnv) new (cachingTrace (cachingEnv.withOrder order hperm) ram).1
      (cachingTrace (cachingEnv.withOrder order hperm) ram).2 :=
  (run_tracePartial _ new (cachingEvents ram)).imp_mem
    fun _ _ _ _ hstep => ⟨order, hperm, hstep⟩

/-- Every target of the call is at the address of the load. -/
def targetsAtLoad (x : DummyPeripheral X × PeripheralEvent O) : Bool :=
  match x.2 with
  | .operation s op => (x.1.solveCall s op).all fun call =>
      call.solver.targets.all fun target => target.2 == x.1.lastMemReadEvent.readAddress
  | _ => true

theorem solvesAtLoad_of_targets {x : DummyPeripheral X × PeripheralEvent O}
    (htargets : targetsAtLoad x = true) : x.1.SolvesAtLoad x.2 := by
  obtain ⟨q, e⟩ := x
  cases e with
  | operation s op =>
    intro call hcall henabled
    unfold targetsAtLoad at htargets
    dsimp only at htargets
    rw [Option.mem_def.mp hcall] at htargets
    exact .inl fun target hmem => beq_iff_eq.mp (List.all_eq_true.mp htargets target hmem)
  | architectural | addAddressRange | enableCache | addDefaultReg => trivial

/-- The solver returns `v` for `A` at the event. -/
def returns (env : SolverEnv X) (A : Address) (v : Nat)
    (x : DummyPeripheral X × PeripheralEvent O) : Bool :=
  match x.2 with
  | .operation s op => x.1.solved env s op A == some v
  | _ => false

end CacheKeyLemmas

theorem cache_own_solutions_status :
    (cachingTrace (cachingEnv.withOrder id .refl) []).1.length = 5 ∧
      ∀ A r, (cachingTrace (cachingEnv.withOrder id .refl) []).2.solvingResults A = some r →
        ∃ q s op, (q, .operation s op) ∈ (cachingTrace (cachingEnv.withOrder id .refl) []).1 ∧
          q.solved cachingEnv s op A = some r.value :=
  ⟨by decide +kernel, (cache_own_solutions (run_cachingTrace id .refl []) fun x hx =>
    solvesAtLoad_of_targets (List.all_eq_true.mp (by decide +kernel : (cachingTrace
      (cachingEnv.withOrder id .refl) []).1.all targetsAtLoad = true) x hx)).1⟩

open TargetLemmas in
/-- With the load from RAM in the loop, the value in RAM is cached for the status register, or
the right one is, with the order of the results. -/
theorem cache_other_solution :
    ∃ tr h tr' h', Run (StepAnyOrder cachingEnv) new tr h ∧
      Run (StepAnyOrder cachingEnv) new tr' h' ∧ tr'.map Prod.snd = tr.map Prod.snd ∧
      h.solvingResultsCacheEnable = true ∧ h.solvingResults ≠ h'.solvingResults ∧
      ∃ A r, h.solvingResults A = some r ∧
        ¬ ∃ q, ∃ (s : PCodeState .le), ∃ op, (q, .operation s op) ∈ tr ∧
          q.solved cachingEnv s op A = some r.value := by
  refine ⟨_, _, _, _, run_cachingTrace id .refl [ramLoad],
    run_cachingTrace List.reverse List.reverse_perm [ramLoad], ?_, by rfl, ?_, 0x100,
    ⟨0x100, 5, 4⟩, by decide +kernel, ?_⟩
  · exact (map_snd_tracePartial (by decide +kernel)).trans
      (map_snd_tracePartial (by decide +kernel)).symm
  · intro heq
    exact absurd (congrFun heq 0x100) (by decide +kernel)
  · rintro ⟨q, s, op, hmem, hsolved⟩
    have hnone : (cachingTrace (cachingEnv.withOrder id .refl) [ramLoad]).1.any
        (returns cachingEnv 0x100 5) = false := by
      decide +kernel
    exact absurd (beq_iff_eq.mpr hsolved) (List.any_eq_false.mp hnone _ hmem)

end DummyPeripheral

end FuguexPeripheral
