import FuguexPeripheral.Bypass.CacheKeys
import FuguexPeripheral.Bypass.Session

/-!
# Sessions that follow nothing

The count of calls and returns is not reset by a load, and it is not negative in a session
that is followed. A return in a session makes it -1, where only a call in a later session
brings it back.

Results:
1. `count_step`: what a step does to the count.
2. `blank_of_negative`: while the count is negative, an open session has an empty solver.
3. `deaf_of_return`: after a return in a session, nothing is solved any more.
4. `one_call_in_session`: the calls and returns that a session survives.
-/

namespace FuguexPeripheral

open ByteStore Runs

/-- No variable is listed, and there is nothing to solve. -/
structure ConstraintSolver.Blank {X : SymExprApi} (c : ConstraintSolver X) : Prop where
  varList : c.varList = fun _ => none
  varToSolve : c.varToSolve = ∅

namespace DummyPeripheral

variable {X : SymExprApi} {O : Order} {env : SolverEnv X} {h h' : DummyPeripheral X}
  {s s' : PCodeState O} {tr : List (DummyPeripheral X × PeripheralEvent O)}

/-- An indirect call while a session is open. -/
def callsInSession : DummyPeripheral X × PeripheralEvent O → Bool
  | (q, .operation _ (.icall _)) => q.solvingStarted
  | _ => false

/-- A return while a session is open. -/
def returnsInSession : DummyPeripheral X × PeripheralEvent O → Bool
  | (q, .operation _ (.ret _)) => q.solvingStarted
  | _ => false

namespace DeafLemmas

/-- What an event adds to the count. -/
def countChange (x : DummyPeripheral X × PeripheralEvent O) : Int32 :=
  if callsInSession x then 1 else if returnsInSession x then -1 else 0

theorem countFunCall_count (h : DummyPeripheral X) (change : Int32) :
    (h.countFunCall change).forgiveFunCall =
      h.forgiveFunCall + if h.solvingStarted then change else 0 := by
  rcases countFunCall_cases h change with ⟨hnot, heq⟩ | ⟨hstarted, -, heq⟩ | ⟨hstarted, -, heq⟩
  · rw [heq, hnot]
    simp
  · rw [heq, hstarted]
    rfl
  · rw [heq, hstarted]
    rfl

theorem onCBranch_count {destination condition : Operand}
    (hbranch : h.onCBranch env s destination condition = .ok (h', s')) :
    h'.forgiveFunCall = h.forgiveFunCall := by
  rcases onCBranch_cases hbranch with ⟨-, -, rfl⟩ | ⟨-, result, solver, -, hfold⟩
  · rcases checkLoop_cases h s destination condition with
      ⟨-, heq⟩ | ⟨-, -, heq⟩ | ⟨-, -, -, heq⟩ | ⟨-, -, -, heq⟩
    all_goals exact congrArg (fun x => x.1.forgiveFunCall) heq
  · obtain ⟨results, hresults⟩ := writeSolutions_hook
      ((result.map fun r => env.resultOrder (r.entries.map fun e => (e.1, e.2))).getD [])
      ({ h.stop with solver := solver }, s)
    rw [← hfold] at hresults
    rw [show h' = _ from hresults]
    rfl

theorem onOperation_count {op : PCodeOp} (harm : h.onOperation env s op = .ok (h', s')) :
    h'.forgiveFunCall = h.forgiveFunCall + countChange (h, .operation s op) := by
  cases op with
  | load source destination =>
    rcases onLoad_cases harm with ⟨-, rfl, -⟩ | ⟨-, _, _, -, -, rfl, -⟩ | ⟨-, -, rfl, -⟩
    all_goals exact (Int32.add_zero _).symm
  | store source destination =>
    cases harm
    unfold onStore
    split
    next => exact (Int32.add_zero _).symm
    next => exact (Int32.add_zero _).symm
  | cbranch destination condition => exact (onCBranch_count harm).trans (Int32.add_zero _).symm
  | icall destination =>
    cases harm
    exact countFunCall_count h 1
  | ret destination =>
    cases harm
    exact countFunCall_count h (-1)
  | copy | branch | ibranch | call | subpiece | binary | unary | skip | other =>
    cases harm
    exact (Int32.add_zero _).symm

theorem count_step {e : PeripheralEvent O} (hstep : Step env h e h') :
    h'.forgiveFunCall = h.forgiveFunCall + countChange (h, e) := by
  cases e with
  | operation s op =>
    obtain ⟨s', hstep⟩ := step_operation hstep
    obtain ⟨h₁, solver, harm, -, rfl⟩ := hookOperationStep_cases hstep
    have hcount := onOperation_count harm
    exact hcount
  | architectural | addAddressRange | enableCache | addDefaultReg =>
    cases hstep
    exact (Int32.add_zero _).symm

/-- Without calls, the count is that of the returns, below zero. -/
theorem count_of_run (hr : History env tr h) (hcalls : ∀ x ∈ tr, callsInSession x = false)
    (hreturns : tr.countP returnsInSession ≤ 2 ^ 31) :
    h.forgiveFunCall.toInt = -(tr.countP returnsInSession : Int) := by
  refine hr.history (fun past q => (∀ x ∈ past, callsInSession x = false) →
    past.countP returnsInSession ≤ 2 ^ 31 →
      q.forgiveFunCall.toInt = -(past.countP returnsInSession : Int))
    (fun _ _ => rfl) ?_ hcalls hreturns
  intro past q e t _ ih hstep hcalls hreturns
  rw [List.countP_append, List.countP_singleton] at hreturns ⊢
  have hpast := ih (fun x hx => hcalls x (List.mem_append_left _ hx)) (by omega)
  have hcall := hcalls (q, e) (List.mem_append_right _ List.mem_cons_self)
  rw [count_step hstep, countChange, hcall, if_neg Bool.false_ne_true]
  split
  next hreturn =>
    rw [if_pos hreturn] at hreturns
    rw [Int32.toInt_add, hpast, show Int32.toInt (-1) = -1 from rfl,
      Int.bmod_eq_of_le (by omega) (by omega)]
    push_cast
    ring
  next => rw [Int32.add_zero, hpast, Nat.add_zero]

/-! ## The solver -/

/-- A session that survives a call or a return has the count zero. -/
theorem countFunCall_zero {change : Int32} (hopen : (h.countFunCall change).solvingStarted = true) :
    (h.countFunCall change).forgiveFunCall = 0 := by
  rcases countFunCall_cases h change with ⟨hnot, heq⟩ | ⟨-, -, heq⟩ | ⟨-, hzero, heq⟩
  · rw [heq] at hopen
    exact absurd (hopen.symm.trans hnot) (by decide)
  · rw [heq] at hopen
    cases hopen
  · rw [heq]
    exact hzero

/-- Only a load with the count not negative puts something into the solver. -/
theorem onOperation_blank {op : PCodeOp} (harm : h.onOperation env s op = .ok (h', s'))
    (hblank : h.solvingStarted = true → h.forgiveFunCall < 0 → h.solver.Blank)
    (hopen : h'.solvingStarted = true) (hcount : h'.forgiveFunCall < 0) : h'.solver.Blank := by
  cases op with
  | load source destination =>
    rcases onLoad_cases harm with ⟨-, rfl, -⟩ | ⟨-, _, _, -, -, rfl, -⟩ | ⟨-, -, rfl, -⟩
    · exact hblank hopen hcount
    · exact hblank hopen hcount
    · exact ⟨rfl, rfl⟩
  | store source destination =>
    cases harm
    unfold onStore at hopen hcount ⊢
    split at hopen
    next => cases hopen
    next hne =>
      rw [if_neg hne] at hcount ⊢
      exact hblank hopen hcount
  | cbranch destination condition =>
    obtain ⟨-, -, rfl⟩ := onCBranch_open harm hopen
    -- two of the four outcomes end the session
    rcases checkLoop_cases h s destination condition with
      ⟨-, heq⟩ | ⟨-, -, heq⟩ | ⟨-, -, -, heq⟩ | ⟨hstarted, -, -, heq⟩
    · rw [heq] at hopen hcount ⊢
      exact hblank hopen hcount
    · rw [heq] at hopen
      cases hopen
    · rw [heq] at hopen
      cases hopen
    · rw [heq] at hcount ⊢
      exact hblank hstarted hcount
  | icall destination =>
    -- a session that survives a call or a return has the count zero, which is not negative
    cases harm
    rw [onICall, countFunCall_zero hopen] at hcount
    exact absurd hcount (by decide)
  | ret destination =>
    cases harm
    rw [onReturn, countFunCall_zero hopen] at hcount
    exact absurd hcount (by decide)
  | copy | branch | ibranch | call | subpiece | binary | unary | skip | other =>
    cases harm
    exact hblank hopen hcount

theorem blank_of_negative (hr : History env tr h) (hopen : h.solvingStarted = true)
    (hcount : h.forgiveFunCall < 0) : h.solver.Blank := by
  suffices h.solvingStarted = true → h.forgiveFunCall < 0 → h.solver.Blank from this hopen hcount
  refine hr.invariant (fun h => h.solvingStarted = true → h.forgiveFunCall < 0 → h.solver.Blank)
    (fun q e t hq hstep hopen hcount => ?_) (fun hnew => by cases hnew)
  cases e with
  | operation s op =>
    obtain ⟨s', hstep⟩ := step_operation hstep
    obtain ⟨h₁, solver, harm, ⟨-, rfl⟩ | ⟨htracking, -⟩, rfl⟩ := hookOperationStep_cases hstep
    · have hblank := onOperation_blank harm hq hopen hcount
      exact hblank
    · -- a session with a negative count is not tracked
      simp only [tracking, Bool.and_eq_true, decide_eq_true_eq] at htracking
      exact absurd hcount (Int32.not_lt.mpr htracking.2)
  | architectural | addAddressRange | enableCache | addDefaultReg =>
    cases hstep
    exact hq hopen hcount

theorem solve_of_blank {c c' : ConstraintSolver X} {operand : Operand} {expected : Nat}
    {res : Option (AList fun _ : Address => Option Nat)} (hblank : c.Blank)
    (hsolve : c.solve env s operand expected = .ok (res, c')) : res = none := by
  obtain ⟨e, -, ⟨-, hnone⟩ | ⟨htargets, -⟩⟩ := ConstraintSolver.solve_cases hsolve
  · exact hnone
  · refine absurd ?_ htargets
    rw [ConstraintSolver.targets, hblank.varToSolve]
    rfl

/-- With an empty solver nothing is written and nothing is cached. -/
theorem step_of_blank {op : PCodeOp} (hblank : h.solvingStarted = true → h.solver.Blank)
    (hstep : h.hookOperationStep env s op = .ok (h', s')) :
    h'.solvingResults = h.solvingResults ∧
      (s' = s ∨ ∃ source destination r, op = .load source destination ∧
        InRange h.addressRangeList (s.getAddress source) ∧
        h.cached (s.getAddress source) = some r) := by
  have hevent : Step env h (.operation s op) h' := by
    rw [Step, PeripheralEvent.apply, hstep]
    rfl
  have hopen : ∀ {destination condition : Operand}, h.checkLoop s destination condition =
      (h.stop, some ⟨h.solver, condition, h.expectedValue⟩) → h.solver.Blank :=
    fun hcall => hblank (checkLoop_call (congrArg Prod.snd hcall)).1
  constructor
  · rcases CacheKeyLemmas.step_results hevent with hkept | ⟨_, _, _, _, _, hop, hcall, hsolve, -⟩
    · exact hkept
    · cases hop
      cases solve_of_blank (hopen hcall) hsolve
  · rcases state_changes hstep with heq | hsolves | hload
    · exact .inl heq
    · cases op with
      | cbranch destination condition =>
        obtain ⟨h₁, solver, harm, -, -⟩ := hookOperationStep_cases hstep
        rcases onCBranch_cases harm with ⟨-, rfl, -⟩ | ⟨hcall, result, c', hsolve, hfold⟩
        · exact .inl rfl
        · rw [solve_of_blank (hopen hcall) hsolve] at hfold
          exact .inl (congrArg Prod.snd hfold)
      | load | store | icall | ret | copy | branch | ibranch | call | subpiece | binary | unary
      | skip | other => cases hsolves
    · exact .inr hload

end DeafLemmas

open DeafLemmas

/-- For every run without calls in sessions: once there was a return in a session, every
later call of the solver finds it empty, and no later operation changes the cache, or the
emulator state unless it is a load in range that the cache serves. -/
theorem deaf_of_return (hr : History env tr h) (hcalls : ∀ x ∈ tr, callsInSession x = false)
    (hreturns : tr.countP returnsInSession ≤ 2 ^ 31) :
    ∀ past x rest, tr = past ++ x :: rest → returnsInSession x = true →
      ∀ q s op, (q, .operation s op) ∈ rest →
        (∀ call, q.solveCall s op = some call → call.solver.Blank) ∧
        ∀ h' s', q.hookOperationStep env s op = .ok (h', s') →
          h'.solvingResults = q.solvingResults ∧
            (s' = s ∨ ∃ source destination r, op = .load source destination ∧
              InRange q.addressRangeList (s.getAddress source) ∧
              q.cached (s.getAddress source) = some r) := by
  rintro past x rest rfl hx q s op hm
  obtain ⟨before, after, rfl⟩ := List.append_of_mem hm
  have hsplit : past ++ x :: (before ++ (q, .operation s op) :: after) =
      (past ++ x :: before) ++ (q, .operation s op) :: after := by
    rw [List.append_assoc, List.cons_append]
  rw [hsplit] at hr hcalls hreturns
  obtain ⟨hq, -⟩ := hr.at
  rw [List.countP_append] at hreturns
  have hcount := count_of_run hq (fun y hy => hcalls y (List.mem_append_left _ hy)) (by omega)
  -- without calls the count only falls, and `x` has made it negative
  have hpos : 0 < (past ++ x :: before).countP returnsInSession :=
    List.countP_pos_iff.mpr ⟨x, by simp, hx⟩
  have hnegative : q.forgiveFunCall < 0 := by
    rw [Int32.lt_iff_toInt_lt, hcount]
    exact neg_lt_zero.mpr (by exact_mod_cast hpos)
  have hblank : q.solvingStarted = true → q.solver.Blank :=
    fun hopen => blank_of_negative hq hopen hnegative
  refine ⟨fun call hcall => ?_, fun h' s' hstep => step_of_blank hblank hstep⟩
  cases op with
  | cbranch destination condition =>
    obtain ⟨hopen, -, rfl⟩ := checkLoop_call hcall
    exact hblank hopen
  | load | store | icall | ret | copy | branch | ibranch | call | subpiece | binary | unary
  | skip | other => cases hcall

namespace DeafLemmas

open SessionLemmas

/-- A loop that returns before it branches back, and then the loop again. -/
def returnEvents : List (PeripheralEvent .le) :=
  pollEvents ++ [.operation pollState (.ret (.constant 0 1)),
    .operation pollState (.load pollRegister (.register "r1" 4 4)),
    .operation pollState (.cbranch (.address 0x10 4) (.constant 0 1))]

noncomputable def returnRun :
    List (DummyPeripheral termApi × PeripheralEvent .le) × DummyPeripheral termApi :=
  tracePartial (fun h e => PeripheralEvent.apply pollEnv h e) new returnEvents

end DeafLemmas

open SessionLemmas

/-- The branch back the second time. -/
theorem deaf_of_return_poll : ∃ q call,
    (q, .operation pollState (.cbranch (.address 0x10 4) (.constant 0 1))) ∈ returnRun.1 ∧
      q.solveCall pollState (.cbranch (.address 0x10 4) (.constant 0 1)) = some call ∧
      call.solver.Blank := by
  have hrun : History pollEnv returnRun.1 returnRun.2 := run_tracePartial _ _ _
  have hdeaf := deaf_of_return hrun
    (show ∀ x ∈ returnRun.1, callsInSession x = false by decide +kernel)
    (show returnRun.1.countP returnsInSession ≤ 2 ^ 31 by decide +kernel)
    (returnRun.1.take 2) returnRun.1[2] (returnRun.1.drop 3) rfl rfl returnRun.1[4].1 pollState
    (.cbranch (.address 0x10 4) (.constant 0 1))
    (List.mem_of_getElem? (rfl : (returnRun.1.drop 3)[1]? = _))
  obtain ⟨call, hcall⟩ := Option.isSome_iff_exists.mp (show (returnRun.1[4].1.solveCall pollState
    (.cbranch (.address 0x10 4) (.constant 0 1))).isSome = true by decide +kernel)
  exact ⟨_, call, List.mem_of_getElem? (rfl : returnRun.1[4]? = _), hcall, hdeaf.1 call hcall⟩

/-! ## Calls and returns that are forgiven -/

/-- A call or a return while a session is open. -/
def crosses (x : DummyPeripheral X × PeripheralEvent O) : Bool :=
  callsInSession x || returnsInSession x

namespace DeafLemmas

theorem zero_of_crosses {e : PeripheralEvent O} (hstep : Step env h e h')
    (hx : crosses (h, e) = true) (hopen : h'.solvingStarted = true) : h'.forgiveFunCall = 0 := by
  cases e with
  | operation s op =>
    obtain ⟨s', hop⟩ := step_operation hstep
    obtain ⟨h₁, solver, harm, -, rfl⟩ := hookOperationStep_cases hop
    cases op with
    | icall destination =>
      cases harm
      exact countFunCall_zero hopen
    | ret destination =>
      cases harm
      exact countFunCall_zero hopen
    | load | store | cbranch | copy | branch | ibranch | call | subpiece | binary | unary | skip
    | other => cases hx
  | architectural | addAddressRange | enableCache | addDefaultReg => cases hx

/-- A session that survives a call or a return had the other one to its credit. -/
theorem count_of_crosses {e : PeripheralEvent O} (hstep : Step env h e h')
    (hx : crosses (h, e) = true) (hopen : h'.solvingStarted = true) :
    h.forgiveFunCall = 1 ∨ h.forgiveFunCall = -1 := by
  have hcount := count_step hstep
  rw [zero_of_crosses hstep hx hopen, countChange] at hcount
  split at hcount
  next =>
    right
    grind
  next hcall =>
    rw [crosses, Bool.or_eq_true] at hx
    rw [if_pos (hx.resolve_left hcall)] at hcount
    left
    grind

theorem count_of_not_crosses {e : PeripheralEvent O} (hstep : Step env h e h')
    (hx : crosses (h, e) = false) : h'.forgiveFunCall = h.forgiveFunCall := by
  rw [crosses, Bool.or_eq_false_iff] at hx
  rw [count_step hstep, countChange, hx.1, hx.2, if_neg Bool.false_ne_true,
    if_neg Bool.false_ne_true, Int32.add_zero]

theorem not_crosses_of_opened {e : PeripheralEvent O} {event : MemReadEvent}
    (hopened : h.opened e = some event) : crosses (h, e) = false := by
  cases e with
  | operation s op =>
    cases op with
    | load | store | cbranch | copy | branch | ibranch | call | subpiece | binary | unary | skip
    | other => rfl
    | icall | ret => cases hopened
  | architectural | addAddressRange | enableCache | addDefaultReg => rfl

end DeafLemmas

/-- **Forgiven calls.** An open session of any run was opened by a load of the run, and since
then there was at most one call or return: with none the count is that at the load, with one
it was 1 or -1 at the load and is zero. -/
theorem one_call_in_session (hr : History env tr h) (hopen : h.solvingStarted = true) :
    ∃ earlier q e since, tr = earlier ++ (q, e) :: since ∧
      q.opened e = some h.lastMemReadEvent ∧ (∀ x ∈ since, x.1.opened x.2 = none) ∧
      (since.countP crosses = 0 ∧ h.forgiveFunCall = q.forgiveFunCall ∨
        since.countP crosses = 1 ∧ h.forgiveFunCall = 0 ∧
          (q.forgiveFunCall = 1 ∨ q.forgiveFunCall = -1)) := by
  refine hr.history (fun past h => h.solvingStarted = true →
    ∃ earlier q e since, past = earlier ++ (q, e) :: since ∧
      q.opened e = some h.lastMemReadEvent ∧ (∀ x ∈ since, x.1.opened x.2 = none) ∧
      (since.countP crosses = 0 ∧ h.forgiveFunCall = q.forgiveFunCall ∨
        since.countP crosses = 1 ∧ h.forgiveFunCall = 0 ∧
          (q.forgiveFunCall = 1 ∨ q.forgiveFunCall = -1))) (fun hnew => by cases hnew) ?_ hopen
  intro past r e' t _ ih hstep hopen
  -- the last step has opened the session, or goes on with it
  rcases step_session hstep hopen with ⟨event, hopened, hevent, -⟩ | hcont
  · refine ⟨past, r, e', [], rfl, hevent ▸ hopened, List.forall_mem_nil _, .inl ⟨rfl, ?_⟩⟩
    exact count_of_not_crosses hstep (not_crosses_of_opened hopened)
  · obtain ⟨earlier, q, e, since, rfl, hopened, hnone, hcount⟩ := ih hcont.started
    refine ⟨earlier, q, e, since ++ [(r, e')], by simp, hcont.event ▸ hopened,
      List.forall_mem_append.mpr ⟨hnone, List.forall_mem_singleton.mpr hcont.notOpened⟩, ?_⟩
    rw [List.countP_append, List.countP_singleton]
    cases hx : crosses (r, e') with
    | false =>
      rw [count_of_not_crosses hstep hx]
      exact hcount
    | true =>
      have hzero := zero_of_crosses hstep hx hopen
      have hone := count_of_crosses hstep hx hopen
      rcases hcount with ⟨hnocall, hsame⟩ | ⟨-, hcall, -⟩
      · rw [hsame] at hone
        exact .inr ⟨by rw [hnocall]; rfl, hzero, hone⟩
      · -- with the count at zero a further call or return ends the session
        rw [hcall] at hone
        exact absurd hone (by decide)

namespace DeafLemmas

/-- A call in a session, and the return in the next one. -/
def callEvents : List (PeripheralEvent .le) :=
  pollEvents ++ [.operation pollState (.icall (.constant 0 1)),
    .operation pollState (.load pollRegister (.register "r1" 4 4)),
    .operation pollState (.ret (.constant 0 1))]

noncomputable def callRun :
    List (DummyPeripheral termApi × PeripheralEvent .le) × DummyPeripheral termApi :=
  tracePartial (fun h e => PeripheralEvent.apply pollEnv h e) new callEvents

/-- The last event is the return. -/
theorem callRun_concat : callRun.1 = callRun.1.take 4 ++ [callRun.1[4]] :=
  rfl

end DeafLemmas

open DeafLemmas

/-- The second session survives its return, since the first one ended with a call. -/
theorem one_call_in_session_poll : ∃ earlier q e since, callRun.1 = earlier ++ (q, e) :: since ∧
    since.countP crosses = 1 ∧ callRun.2.forgiveFunCall = 0 ∧
      (q.forgiveFunCall = 1 ∨ q.forgiveFunCall = -1) := by
  have hrun : History pollEnv callRun.1 callRun.2 := run_tracePartial _ _ _
  obtain ⟨earlier, q, e, since, htr, hopened, -, hcount⟩ := one_call_in_session hrun (by decide)
  refine ⟨earlier, q, e, since, htr, ?_⟩
  rcases hcount with ⟨hnone, -⟩ | hone
  · have hcrosses : crosses callRun.1[4] = true := by decide +kernel
    obtain rfl | ⟨rest, y, rfl⟩ := since.eq_nil_or_concat
    · obtain ⟨-, hcall⟩ := List.append_inj' (callRun_concat.symm.trans htr) rfl
      cases (List.cons.inj hcall).1
      cases hopened
    · rw [List.concat_eq_append, ← List.cons_append, ← List.append_assoc] at htr
      obtain ⟨-, hcall⟩ := List.append_inj' (callRun_concat.symm.trans htr) rfl
      cases (List.cons.inj hcall).1
      rw [List.concat_eq_append, List.countP_append, List.countP_singleton,
        if_pos hcrosses] at hnone
      cases hnone
  · exact hone

end DummyPeripheral

end FuguexPeripheral
