import FuguexPeripheral.Bypass.Steps
import FuguexPeripheral.Bypass.Term

/-!
# What is left over from earlier sessions

A load in range opens a session and resets its solver, its event and its count of
forgiven jumps. The count of forgiven calls and returns is not reset, and it is all
that a session sees of the past.

Results:
1. `sameSession_bisimulation`: the other fields that survive make no difference.
2. `sessions_independent_iff`: two peripherals with the same configuration and no
   cache act alike on every trace from a load in range on if and only if they have the
   same count of calls and returns, or no address is in range.
3. `leftover_return`: after a session that ended in a return the next one is lost.
-/

namespace FuguexPeripheral

open ByteStore Runs

namespace DummyPeripheral

variable {X : SymExprApi} {O : Order} {env : SolverEnv X} {h h₁ h₂ : DummyPeripheral X}
  {s : PCodeState O}

/-- What an operation does outside the peripheral: the call of the solver, and the
state it leaves to the emulator, or a panic. -/
abbrev Observation (X : SymExprApi) (O : Order) :=
  Option (SolveCall X) × Except Panic (PCodeState O)

/-- The peripheral as a machine driven by operations, each in its own state. -/
def react (env : SolverEnv X) (h : DummyPeripheral X) (e : PCodeState O × PCodeOp) :
    Observation X O × Option (DummyPeripheral X) :=
  match h.hookOperationStep env e.1 e.2 with
  | .ok (h', s') => ((h.solveCall e.1 e.2, .ok s'), some h')
  | .error p => ((h.solveCall e.1 e.2, .error p), none)

theorem react_ok {h' : DummyPeripheral X} {s' : PCodeState O} {op : PCodeOp}
    (hstep : h.hookOperationStep env s op = .ok (h', s')) :
    react env h (s, op) = ((h.solveCall s op, .ok s'), some h') := by
  unfold react
  rw [hstep]

/-- The two peripherals act alike on every trace that begins with a load in range. -/
def SameSessions (O : Order) (env : SolverEnv X) (h₁ h₂ : DummyPeripheral X) : Prop :=
  ∀ (s : PCodeState O) source destination rest,
    InRange h₁.addressRangeList (s.getAddress source) →
      outputs (react env) h₁ ((s, .load source destination) :: rest) =
        outputs (react env) h₂ ((s, .load source destination) :: rest)

/-- The same ranges, the same default registers, and no cache. -/
structure SameConfig (h₁ h₂ : DummyPeripheral X) : Prop where
  ranges : h₁.addressRangeList = h₂.addressRangeList
  defaults : h₁.solverDefaultVars = h₂.solverDefaultVars
  cacheOff₁ : h₁.solvingResultsCacheEnable = false
  cacheOff₂ : h₂.solvingResultsCacheEnable = false

/-- The fields that survive a session and that no later one reads. -/
structure Noise where
  eventCounter : Nat
  pcodeCounter : Nat
  loadCounter : Nat
  solvingResults : Address → Option SolvingResult
  forgiveBranchCondition : UInt32

def noisy (h : DummyPeripheral X) (n : Noise) : DummyPeripheral X :=
  { h with
    eventCounter := n.eventCounter
    pcodeCounter := n.pcodeCounter
    solvingResults := n.solvingResults
    forgiveBranchCondition := n.forgiveBranchCondition
    lastMemReadEvent := { h.lastMemReadEvent with eventCounter := n.loadCounter } }

/-- The noise agrees with the branch condition of a forgiven jump, if there is one. -/
def Harmless (h : DummyPeripheral X) (n : Noise) : Prop :=
  h.forgiveJump ≠ 0 → n.forgiveBranchCondition = h.forgiveBranchCondition

/-- The same session: the two differ in noise only. -/
def SameSession (h₁ h₂ : DummyPeripheral X) : Prop :=
  h₁.solvingResultsCacheEnable = false ∧ ∃ n, h₁.Harmless n ∧ h₂ = h₁.noisy n

/-! ## The arms under noise -/

namespace LeftoverLemmas

variable {n : Noise}

theorem onLoad_uncached (hcache : h.solvingResultsCacheEnable = false)
    (s : PCodeState O) (source destination : Operand) :
    h.onLoad s source destination =
      .ok (if InRange h.addressRangeList (s.getAddress source) then
        h.startSession s (s.getAddress source) destination.size else h, s) := by
  split
  next hin => exact onLoad_miss hin (cached_of_disabled hcache _)
  next hout => rw [onLoad, loadLoop_eq, if_neg hout]

theorem onLoad_opens (hcache : h.solvingResultsCacheEnable = false) {source : Operand}
    (hin : InRange h.addressRangeList (s.getAddress source)) (destination : Operand) :
    h.onLoad s source destination =
      .ok (h.startSession s (s.getAddress source) destination.size, s) :=
  onLoad_miss hin (cached_of_disabled hcache _)

theorem expectedValue_noisy (hn : h.Harmless n) : (h.noisy n).expectedValue = h.expectedValue := by
  unfold expectedValue
  by_cases hj : h.forgiveJump = 0
  · rw [if_pos hj, if_pos (show (h.noisy n).forgiveJump = 0 from hj)]
  · rw [if_neg hj, if_neg (show ¬ (h.noisy n).forgiveJump = 0 from hj)]
    rw [show (h.noisy n).forgiveBranchCondition = h.forgiveBranchCondition from hn hj]

theorem checkLoop_noisy (hn : h.Harmless n) (s : PCodeState O) (destination condition : Operand) :
    ∃ n', (h.checkLoop s destination condition).1.Harmless n' ∧
      (h.noisy n).checkLoop s destination condition =
        ((h.checkLoop s destination condition).1.noisy n',
          (h.checkLoop s destination condition).2) := by
  have hexp := expectedValue_noisy hn
  unfold checkLoop
  by_cases hstarted : h.solvingStarted = true
  · rw [if_pos hstarted, if_pos (show (h.noisy n).solvingStarted = true from hstarted)]
    dsimp only
    rw [hexp, show (h.noisy n).lastMemReadEvent.pc = h.lastMemReadEvent.pc from rfl]
    split
    · exact ⟨n, hn, rfl⟩
    · split
      · exact ⟨n, hn, rfl⟩
      · rw [show (h.noisy n).forgiveJump = h.forgiveJump from rfl]
        split
        next hgt =>
          have hj : h.forgiveJump ≠ 0 := by
            intro hj
            rw [hj] at hgt
            exact absurd hgt (by decide)
          exact ⟨n, fun _ => hn hj, rfl⟩
        · exact ⟨{ n with forgiveBranchCondition := (s.getOperandU8 condition).toUInt32 },
            fun _ => rfl, rfl⟩
  · rw [if_neg hstarted, if_neg (show ¬ (h.noisy n).solvingStarted = true from hstarted)]
    exact ⟨n, hn, rfl⟩

theorem countFunCall_noisy (h : DummyPeripheral X) (n : Noise) (change : Int32) :
    (h.noisy n).countFunCall change = (h.countFunCall change).noisy n := by
  unfold countFunCall
  by_cases hstarted : h.solvingStarted = true
  · rw [if_pos hstarted, if_pos (show (h.noisy n).solvingStarted = true from hstarted)]
    dsimp only
    rw [show (h.noisy n).forgiveFunCall = h.forgiveFunCall from rfl]
    split
    · rfl
    · rfl
  · rw [if_neg hstarted, if_neg (show ¬ (h.noisy n).solvingStarted = true from hstarted)]

theorem countFunCall_harmless (hn : h.Harmless n) (change : Int32) :
    (h.countFunCall change).Harmless n := by
  rcases countFunCall_cases h change with ⟨-, heq⟩ | ⟨-, -, heq⟩ | ⟨-, -, heq⟩
  all_goals rw [heq]; exact hn

/-- Without the cache the solutions change the emulator state only. -/
theorem writeSolutions_noisy (hcache : h.solvingResultsCacheEnable = false) (n : Noise)
    (solutions : List (Address × Option Nat)) (s : PCodeState O) :
    ∃ s', solutions.foldl writeSolution (h, s) = (h, s') ∧
      solutions.foldl writeSolution (h.noisy n, s) = (h.noisy n, s') := by
  induction solutions generalizing s with
  | nil => exact ⟨s, rfl, rfl⟩
  | cons kv solutions ih =>
    have hone : ∃ s₁, writeSolution (h, s) kv = (h, s₁) ∧
        writeSolution (h.noisy n, s) kv = (h.noisy n, s₁) := by
      unfold writeSolution
      cases kv.2 with
      | none => exact ⟨s, rfl, rfl⟩
      | some v =>
        dsimp only
        rw [hcache, show (h.noisy n).solvingResultsCacheEnable = false from hcache]
        exact ⟨_, rfl, rfl⟩
    obtain ⟨s₁, heq, heq'⟩ := hone
    rw [List.foldl_cons, List.foldl_cons, heq, heq']
    exact ih s₁

/-- The same state for the emulator, and the same session; or the same panic. -/
inductive SameOutcome : Except Panic (DummyPeripheral X × PCodeState O) →
    Except Panic (DummyPeripheral X × PCodeState O) → Prop
  | ok {h₁ h₂ : DummyPeripheral X} {s : PCodeState O} :
      SameSession h₁ h₂ → SameOutcome (.ok (h₁, s)) (.ok (h₂, s))
  | error (p : Panic) : SameOutcome (.error p) (.error p)

theorem onCBranch_noisy (hcache : h.solvingResultsCacheEnable = false) (hn : h.Harmless n)
    (s : PCodeState O) (destination condition : Operand) :
    SameOutcome (h.onCBranch env s destination condition)
      ((h.noisy n).onCBranch env s destination condition) := by
  obtain ⟨n', hn', heq⟩ := checkLoop_noisy hn s destination condition
  obtain ⟨-, -, hcache', -⟩ := checkLoop_fields h s destination condition
  rw [hcache] at hcache'
  unfold onCBranch
  rw [heq]
  cases hcheck : h.checkLoop s destination condition with
  | mk h' call =>
    rw [hcheck] at hn' hcache'
    cases call with
    | none => exact .ok ⟨hcache', n', hn', rfl⟩
    | some call =>
      dsimp only
      cases call.solver.solve env s call.condition call.expectedValue with
      | error p => exact .error p
      | ok r =>
        obtain ⟨result, solver⟩ := r
        cases result with
        | none => exact .ok ⟨hcache', n', hn', rfl⟩
        | some result =>
          have hcache'' : ({ h' with solver := solver }).solvingResultsCacheEnable = false :=
            hcache'
          obtain ⟨s', hfold, hfold'⟩ := writeSolutions_noisy hcache'' n'
            (env.resultOrder (result.entries.map fun e => (e.1, e.2))) s
          show SameOutcome (.ok (List.foldl writeSolution _ _))
            (.ok (List.foldl writeSolution (({ h' with solver := solver }).noisy n', s) _))
          rw [hfold, hfold']
          exact .ok ⟨hcache', n', hn', rfl⟩

theorem onOperation_noisy (env : SolverEnv X) (hcache : h.solvingResultsCacheEnable = false)
    (hn : h.Harmless n)
    (s : PCodeState O) (op : PCodeOp) :
    SameOutcome (h.onOperation env s op) ((h.noisy n).onOperation env s op) := by
  cases op with
  | load source destination =>
    unfold onOperation
    dsimp only
    rw [onLoad_uncached hcache, onLoad_uncached (h := h.noisy n) hcache]
    rw [show (h.noisy n).addressRangeList = h.addressRangeList from rfl]
    split
    · -- the event keeps the value that the event counter happens to have
      exact .ok ⟨hcache, { n with pcodeCounter := 0, loadCounter := n.eventCounter },
        fun hj => absurd rfl hj, rfl⟩
    · exact .ok ⟨hcache, n, hn, rfl⟩
  | store source destination =>
    unfold onOperation onStore
    dsimp only
    rw [show (h.noisy n).lastMemReadEvent.readAddress = h.lastMemReadEvent.readAddress from rfl]
    split
    · exact .ok ⟨hcache, n, hn, rfl⟩
    · exact .ok ⟨hcache, n, hn, rfl⟩
  | cbranch destination condition => exact onCBranch_noisy hcache hn s destination condition
  | icall destination =>
    unfold onOperation onICall
    dsimp only
    rw [countFunCall_noisy]
    exact .ok ⟨(countFunCall_fields h 1).2.2.1.trans hcache, n, countFunCall_harmless hn 1, rfl⟩
  | ret destination =>
    unfold onOperation onReturn
    dsimp only
    rw [countFunCall_noisy]
    have hharmless := countFunCall_harmless hn (-1)
    exact .ok ⟨(countFunCall_fields h (-1)).2.2.1.trans hcache, n, hharmless, rfl⟩
  | copy | branch | ibranch | call | subpiece | binary | unary | skip | other =>
    exact .ok ⟨hcache, n, hn, rfl⟩

theorem hookOperationStep_same (env : SolverEnv X) (hsame : SameSession h₁ h₂)
    (s : PCodeState O) (op : PCodeOp) :
    SameOutcome (h₁.hookOperationStep env s op) (h₂.hookOperationStep env s op) := by
  obtain ⟨hcache, n, hn, rfl⟩ := hsame
  unfold hookOperationStep
  have harm := onOperation_noisy env hcache hn s op
  revert harm
  generalize h₁.onOperation env s op = r₁
  generalize (h₁.noisy n).onOperation env s op = r₂
  rintro (⟨⟨hcache', n', hn', rfl⟩⟩ | p)
  next h' s' =>
    dsimp only
    unfold track
    rw [show (h'.noisy n').tracking = h'.tracking from rfl,
      show (h'.noisy n').solver = h'.solver from rfl]
    by_cases ht : h'.tracking = true
    · rw [if_pos ht, if_pos ht]
      cases h'.solver.addPcode op s' with
      | error p => exact .error p
      | ok solver =>
        exact .ok ⟨hcache', { n' with pcodeCounter := n'.pcodeCounter + 1 }, hn', rfl⟩
    · rw [if_neg ht, if_neg ht]
      exact .ok ⟨hcache', { n' with pcodeCounter := n'.pcodeCounter + 1 }, hn', rfl⟩
  · exact .error p

theorem solveCall_same (hsame : SameSession h₁ h₂) (s : PCodeState O) (op : PCodeOp) :
    h₁.solveCall s op = h₂.solveCall s op := by
  obtain ⟨-, n, hn, rfl⟩ := hsame
  cases op with
  | cbranch destination condition =>
    obtain ⟨n', -, heq⟩ := checkLoop_noisy hn s destination condition
    show (h₁.checkLoop s destination condition).2 = ((h₁.noisy n).checkLoop s destination _).2
    rw [heq]
  | load | store | icall | ret | copy | branch | ibranch | call | subpiece | binary | unary
  | skip | other => rfl

end LeftoverLemmas

open LeftoverLemmas

/-- Peripherals in the same session act alike. -/
theorem sameSession_bisimulation (env : SolverEnv X) :
    Bisimulation (react (O := O) env) (SameSession (X := X)) := by
  intro h₁ h₂ e hsame
  have hstep := hookOperationStep_same env hsame e.1 e.2
  unfold react
  rw [← solveCall_same hsame e.1 e.2]
  revert hstep
  generalize h₁.hookOperationStep env e.1 e.2 = r₁
  generalize h₂.hookOperationStep env e.1 e.2 = r₂
  rintro (hsame' | p)
  · exact ⟨rfl, .some hsame'⟩
  · exact ⟨rfl, .none⟩

namespace LeftoverLemmas

/-! ## The same counts -/

/-- The load would start the session that is already started. -/
theorem react_startSession (hcache : h.solvingResultsCacheEnable = false)
    {source destination : Operand}
    (hin : InRange h.addressRangeList (s.getAddress source)) :
    react env h (s, .load source destination) =
      react env (h.startSession s (s.getAddress source) destination.size)
        (s, .load source destination) := by
  unfold react hookOperationStep onOperation
  dsimp only
  rw [onLoad_opens hcache hin,
    onLoad_opens (h := h.startSession s (s.getAddress source) destination.size) hcache hin]
  rfl

theorem sameSession_start (hconf : SameConfig h₁ h₂)
    (hcalls : h₁.forgiveFunCall = h₂.forgiveFunCall) (a n : Nat) :
    SameSession (h₁.startSession s a n) (h₂.startSession s a n) := by
  obtain ⟨hranges, hdefaults, hcache₁, hcache₂⟩ := hconf
  refine ⟨hcache₁, ⟨h₂.eventCounter, 0, h₂.eventCounter, h₂.solvingResults,
    h₂.forgiveBranchCondition⟩, fun hj => absurd rfl hj, ?_⟩
  unfold startSession noisy
  rw [hranges, hdefaults, hcache₁, hcache₂, hcalls]

theorem sameSessions_of_calls (hconf : SameConfig h₁ h₂)
    (hcalls : h₁.forgiveFunCall = h₂.forgiveFunCall) : SameSessions O env h₁ h₂ := by
  intro s source destination rest hin
  have hin₂ : InRange h₂.addressRangeList (s.getAddress source) := hconf.ranges ▸ hin
  have hout := outputs_congr (sameSession_bisimulation env)
    (sameSession_start (s := s) hconf hcalls (s.getAddress source) destination.size)
    ((s, .load source destination) :: rest)
  unfold outputs at hout ⊢
  rw [react_startSession hconf.cacheOff₁ hin, react_startSession hconf.cacheOff₂ hin₂]
  exact hout

/-! ## Different counts -/

/-- A register that can hold `a`, a state where it does, and a load through it. -/
def probePtr (a : Address) : Operand :=
  .register "ptr" 0 (a + 1)

def probeState (a : Address) : PCodeState O :=
  ({ spaces := fun _ _ => 0, programCounter := 0 } : PCodeState O).setValue (probePtr a) a

def probeLoad (a : Address) : PCodeOp :=
  .load (probePtr a) (.register "value" (a + 1) 1)

def probeReturn : PCodeOp :=
  .ret (.constant 0 1)

def probeBranch : PCodeOp :=
  .cbranch (.address 0 1) (.constant 0 1)

theorem probeState_getAddress (a : Address) :
    (probeState a : PCodeState O).getAddress (probePtr a) = a := by
  have hlt : a < 2 ^ (8 * (a + 1)) :=
    lt_of_lt_of_le Nat.lt_two_pow_self (Nat.pow_le_pow_right (by decide) (by omega))
  rw [PCodeState.getAddress, probeState, PCodeState.value_setValue_same rfl]
  exact Nat.mod_eq_of_lt hlt

/-- The load puts its target on the list if the session is tracked. -/
theorem addPcode_load (c : ConstraintSolver X) (a : Address) :
    ∃ c', c.addPcode (probeLoad a) (probeState a : PCodeState O) = .ok c' ∧
      c'.varToSolve.entries ≠ [] := by
  have hptr : Variables.genVariableName (probePtr a) = some "ptr" := rfl
  have hvalue : Variables.genVariableName (.register "value" (a + 1) 1) = some "value" := rfl
  obtain ⟨e, c₁, hins⟩ := ConstraintSolver.varListInsert_ok hptr c none
  obtain ⟨e', c₂, hins'⟩ := ConstraintSolver.varListInsert_ok hvalue
    { c₁ with varToSolve := c₁.varToSolve.insert "ptr"
                (e, (probeState a : PCodeState O).getAddress (probePtr a)) }
    (some (X.extractLow e 8))
  refine ⟨c₂, ?_, ?_⟩
  · unfold ConstraintSolver.addPcode probeLoad
    dsimp only
    rw [hins]
    show ConstraintSolver.insertResult _ _ _ = _
    unfold ConstraintSolver.insertResult
    rw [show (8 * (Operand.register "value" (a + 1) 1).size) = 8 from rfl, hins']
  · rw [ConstraintSolver.varListInsert_varToSolve hins', AList.entries_insert]
    exact List.cons_ne_nil _ _

/-- The peripheral just after the load. -/
theorem react_probeLoad (env : SolverEnv X) (hcache : h.solvingResultsCacheEnable = false)
    {a : Address} (hin : InRange h.addressRangeList a) :
    ∃ h', react env h ((probeState a : PCodeState O), probeLoad a) =
        ((none, .ok (probeState a)), some h') ∧
      h'.solvingStarted = true ∧ h'.forgiveJump = 0 ∧
      h'.forgiveFunCall = h.forgiveFunCall ∧ h'.solvingResultsCacheEnable = false ∧
      h'.addressRangeList = h.addressRangeList ∧
      (h'.solver.varToSolve.entries = [] ↔ ¬ 0 ≤ h.forgiveFunCall) := by
  have hin' : InRange h.addressRangeList
      ((probeState a : PCodeState O).getAddress (probePtr a)) := by
    rw [probeState_getAddress]
    exact hin
  have harm : h.onOperation env (probeState a) (probeLoad a) =
      .ok (h.startSession (probeState a) ((probeState a : PCodeState O).getAddress (probePtr a)) 1,
        probeState a) :=
    onLoad_opens hcache hin' _
  by_cases ht : 0 ≤ h.forgiveFunCall
  · obtain ⟨c, hadd, hne⟩ := addPcode_load (O := O)
      (ConstraintSolver.new.setDefaultVariables h.solverDefaultVars) a
    refine ⟨_, react_ok (hookOperationStep_tracked harm (decide_eq_true ht) hadd), rfl, rfl, rfl,
      hcache, rfl, fun hnil => absurd hnil hne, fun hnot => absurd ht hnot⟩
  · refine ⟨_, react_ok (hookOperationStep_untracked harm (decide_eq_false ht)), rfl, rfl, rfl,
      hcache, rfl, fun _ => ht, fun _ => rfl⟩

theorem react_probeReturn (env : SolverEnv X) (hstarted : h.solvingStarted = true)
    (hjump : h.forgiveJump = 0)
    (s : PCodeState O) :
    ∃ h', react env h (s, probeReturn) = ((none, .ok s), some h') ∧
      h'.forgiveFunCall = h.forgiveFunCall - 1 ∧
      h'.solvingResultsCacheEnable = h.solvingResultsCacheEnable ∧
      h'.addressRangeList = h.addressRangeList := by
  have harm : h.onOperation env s probeReturn = .ok (h.onReturn, s) := rfl
  rcases countFunCall_cases h (-1) with ⟨hnot, -⟩ | ⟨-, -, heq⟩ | ⟨-, hzero, heq⟩
  · exact absurd (hstarted.symm.trans hnot) (by decide)
  · have ht : h.onReturn.tracking = false := by
      rw [onReturn, heq]
      rfl
    refine ⟨_, react_ok (hookOperationStep_untracked harm ht), ?_⟩
    rw [onReturn, heq]
    exact ⟨Int32.add_neg_eq_sub, rfl, rfl⟩
  · have ht : h.onReturn.tracking = true := by
      rw [onReturn, heq]
      unfold tracking
      dsimp only
      rw [hstarted, hjump, hzero]
      rfl
    refine ⟨_, react_ok (hookOperationStep_tracked harm ht rfl), ?_⟩
    rw [onReturn, heq]
    exact ⟨Int32.add_neg_eq_sub, rfl, rfl⟩

theorem react_probeBranch (env : SolverEnv X) (hstarted : h.solvingStarted = true)
    (s : PCodeState O) :
    (react env h (s, probeBranch)).1.1 = some ⟨h.solver, .constant 0 1, h.expectedValue⟩ := by
  have hcall : h.solveCall s probeBranch = some ⟨h.solver, .constant 0 1, h.expectedValue⟩ := by
    show (h.checkLoop s (.address 0 1) (.constant 0 1)).2 = _
    have hle : (Operand.address 0 1).branchOffset ≤ h.lastMemReadEvent.pc := Nat.zero_le _
    rw [checkLoop_closes hstarted hle]
  unfold react
  split
  · exact hcall
  · exact hcall

/-- The two act alike from the load of the probe on. -/
def Alike (O : Order) (env : SolverEnv X) (a : Address) (h₁ h₂ : DummyPeripheral X) : Prop :=
  ∀ rest, outputs (react env) h₁ (((probeState a : PCodeState O), probeLoad a) :: rest) =
    outputs (react env) h₂ (((probeState a : PCodeState O), probeLoad a) :: rest)

/-- A branch back after the load shows whether the load was tracked. -/
theorem alike_sign {a : Address} (halike : Alike O env a h₁ h₂)
    (hcache₁ : h₁.solvingResultsCacheEnable = false) (hin₁ : InRange h₁.addressRangeList a)
    (hcache₂ : h₂.solvingResultsCacheEnable = false) (hin₂ : InRange h₂.addressRangeList a) :
    0 ≤ h₁.forgiveFunCall ↔ 0 ≤ h₂.forgiveFunCall := by
  obtain ⟨g₁, hg₁, hst₁, -, -, -, -, hsign₁⟩ :=
    react_probeLoad (O := O) env hcache₁ hin₁
  obtain ⟨g₂, hg₂, hst₂, -, -, -, -, hsign₂⟩ :=
    react_probeLoad (O := O) env hcache₂ hin₂
  have hout := halike [(probeState a, probeBranch)]
  rw [outputs_cons _ hg₁, outputs_cons _ hg₂] at hout
  have hhead := congrArg List.head? (List.cons.inj hout).2
  have hcall := react_probeBranch env hst₁ (probeState a : PCodeState O)
  have hcall' := react_probeBranch env hst₂ (probeState a : PCodeState O)
  rw [outputs_head, outputs_head] at hhead
  rw [Option.some.inj hhead, hcall'] at hcall
  have hsolver : g₂.solver = g₁.solver := (SolveCall.mk.inj (Option.some.inj hcall)).1
  rw [hsolver, hsign₁] at hsign₂
  exact not_iff_not.mp hsign₂

/-- A return after the load lowers both counts. -/
theorem alike_return {a : Address} (halike : Alike O env a h₁ h₂)
    (hcache₁ : h₁.solvingResultsCacheEnable = false) (hin₁ : InRange h₁.addressRangeList a)
    (hcache₂ : h₂.solvingResultsCacheEnable = false) (hin₂ : InRange h₂.addressRangeList a) :
    ∃ g₁ g₂, Alike O env a g₁ g₂ ∧
      (g₁.solvingResultsCacheEnable = false ∧ InRange g₁.addressRangeList a ∧
        g₁.forgiveFunCall = h₁.forgiveFunCall - 1) ∧
      (g₂.solvingResultsCacheEnable = false ∧ InRange g₂.addressRangeList a ∧
        g₂.forgiveFunCall = h₂.forgiveFunCall - 1) := by
  obtain ⟨k₁, hk₁, hst₁, hj₁, hf₁, hc₁, hr₁, -⟩ :=
    react_probeLoad (O := O) env hcache₁ hin₁
  obtain ⟨k₂, hk₂, hst₂, hj₂, hf₂, hc₂, hr₂, -⟩ :=
    react_probeLoad (O := O) env hcache₂ hin₂
  obtain ⟨g₁, hg₁, hfg₁, hcg₁, hrg₁⟩ := react_probeReturn env hst₁ hj₁ (probeState a)
  obtain ⟨g₂, hg₂, hfg₂, hcg₂, hrg₂⟩ := react_probeReturn env hst₂ hj₂ (probeState a)
  refine ⟨g₁, g₂, ?_, ⟨hcg₁.trans hc₁, ?_, ?_⟩, ⟨hcg₂.trans hc₂, ?_, ?_⟩⟩
  · intro rest
    have hout := halike ((probeState a, probeReturn) :: (probeState a, probeLoad a) :: rest)
    rw [outputs_cons _ hk₁, outputs_cons _ hk₂, outputs_cons _ hg₁, outputs_cons _ hg₂] at hout
    exact (List.cons.inj (List.cons.inj hout).2).2
  · rw [hrg₁, hr₁]
    exact hin₁
  · rw [hfg₁, hf₁]
  · rw [hrg₂, hr₂]
    exact hin₂
  · rw [hfg₂, hf₂]

theorem alike_sub {a : Address} (k : Nat) (halike : Alike O env a h₁ h₂)
    (hcache₁ : h₁.solvingResultsCacheEnable = false) (hin₁ : InRange h₁.addressRangeList a)
    (hcache₂ : h₂.solvingResultsCacheEnable = false) (hin₂ : InRange h₂.addressRangeList a) :
    0 ≤ h₁.forgiveFunCall - Int32.ofNat k ↔ 0 ≤ h₂.forgiveFunCall - Int32.ofNat k := by
  induction k generalizing h₁ h₂ with
  | zero =>
    rw [show Int32.ofNat 0 = 0 from rfl, Int32.sub_zero, Int32.sub_zero]
    exact alike_sign halike hcache₁ hin₁ hcache₂ hin₂
  | succ k ih =>
    obtain ⟨g₁, g₂, halike', ⟨hc₁, hi₁, hf₁⟩, ⟨hc₂, hi₂, hf₂⟩⟩ :=
      alike_return halike hcache₁ hin₁ hcache₂ hin₂
    have hk := ih halike' hc₁ hi₁ hc₂ hi₂
    rw [hf₁, hf₂, Int32.sub_sub, Int32.sub_sub] at hk
    rw [Nat.add_comm, Int32.ofNat_add]
    exact hk

/-- Two counts with the same sign after every subtraction are equal. -/
theorem eq_of_sub_nonneg {x y : Int32}
    (hsub : ∀ k, 0 ≤ x - Int32.ofNat k ↔ 0 ≤ y - Int32.ofNat k) : x = y := by
  have hat : ∀ z : Int32, 0 ≤ x - z ↔ 0 ≤ y - z := by
    intro z
    have hz := hsub z.toBitVec.toNat
    rwa [Int32.ofNat_bitVecToNat, Int32.ofBitVec_toBitVec] at hz
  have hx : 0 ≤ y - x := (hat x).mp (by rw [Int32.sub_self]; decide)
  have hy : 0 ≤ x - y := (hat y).mpr (by rw [Int32.sub_self]; decide)
  rw [Int32.le_iff_toInt_le, Int32.toInt_zero, Int32.toInt_sub] at hx hy
  have hx₁ := x.le_toInt
  have hx₂ := x.toInt_lt
  have hy₁ := y.le_toInt
  have hy₂ := y.toInt_lt
  refine Int32.toInt_inj.mp ?_
  rw [Int.bmod_def] at hx hy
  split at hx
  · split at hy
    · omega
    · omega
  · split at hy
    · omega
    · omega

end LeftoverLemmas

/-- Two peripherals with the same configuration and no cache act alike on every trace
that begins with a load in range, if and only if their counts of forgiven calls and
returns agree, or there is no address in range to load from. -/
theorem sessions_independent_iff (hconf : SameConfig h₁ h₂) :
    SameSessions O env h₁ h₂ ↔
      h₁.forgiveFunCall = h₂.forgiveFunCall ∨ ∀ a, ¬ InRange h₁.addressRangeList a := by
  constructor
  · intro hsame
    by_cases hany : ∃ a, InRange h₁.addressRangeList a
    · obtain ⟨a, hin₁⟩ := hany
      have hin₂ : InRange h₂.addressRangeList a := hconf.ranges ▸ hin₁
      have halike : Alike O env a h₁ h₂ := by
        intro rest
        refine hsame (probeState a) (probePtr a) _ rest ?_
        rw [probeState_getAddress]
        exact hin₁
      exact .inl (eq_of_sub_nonneg fun k =>
        alike_sub k halike hconf.cacheOff₁ hin₁ hconf.cacheOff₂ hin₂)
    · exact .inr (not_exists.mp hany)
  · rintro (hcalls | hnone)
    · exact sameSessions_of_calls hconf hcalls
    · exact fun s source _ _ hin => absurd hin (hnone (s.getAddress source))

namespace LeftoverLemmas

/-- A range is configured. -/
def fresh : List (PeripheralEvent .le) :=
  [.addAddressRange (0x4, 0x7)]

/-- A range is configured, then a function polls once and returns. -/
def returned : List (PeripheralEvent .le) :=
  [.addAddressRange (0x4, 0x7), .operation (probeState 0x4) (probeLoad 0x4),
    .operation (probeState 0x4) probeReturn]

noncomputable def leftoverEnv : SolverEnv termApi :=
  .preferring termApi fun _ => 0

noncomputable def after (es : List (PeripheralEvent .le)) : DummyPeripheral termApi :=
  (tracePartial (fun h e => PeripheralEvent.apply leftoverEnv h e) new es).2

end LeftoverLemmas

/-- The counts of a fresh peripheral and of one whose last session ended in a return. -/
theorem sessions_independent_iff_returned :
    SameSessions .le leftoverEnv (after fresh) (after returned) ↔
      (after fresh).forgiveFunCall = (after returned).forgiveFunCall ∨
        ∀ a, ¬ InRange (after fresh).addressRangeList a :=
  sessions_independent_iff ⟨rfl, rfl, rfl, rfl⟩

/-- Both are reached from `new()` and configured alike; but a load and a branch back to
it are solved in the one, and in the other the solver has no target. -/
theorem leftover_return :
    (∃ tr, History leftoverEnv (tr : List (_ × PeripheralEvent .le)) (after fresh)) ∧
    (∃ tr, History leftoverEnv (tr : List (_ × PeripheralEvent .le)) (after returned)) ∧
    SameConfig (after fresh) (after returned) ∧
    ¬ SameSessions .le leftoverEnv (after fresh) (after returned) := by
  refine ⟨⟨_, run_tracePartial _ new fresh⟩, ⟨_, run_tracePartial _ new returned⟩,
    ⟨rfl, rfl, rfl, rfl⟩, ?_⟩
  intro hsame
  have hin : InRange (after fresh).addressRangeList
      ((probeState 0x4 : PCodeState .le).getAddress (probePtr 0x4)) := by decide +kernel
  have halike : Alike .le leftoverEnv 0x4 (after fresh) (after returned) :=
    fun rest => hsame (probeState 0x4) (probePtr 0x4) _ rest hin
  have hsign := alike_sign halike rfl (by decide +kernel) rfl (by decide +kernel)
  exact absurd (hsign.mp (by decide +kernel)) (by decide +kernel)

end DummyPeripheral

end FuguexPeripheral
