import FuguexPeripheral.Bypass.CacheKeys
import FuguexPeripheral.Bypass.ForgivenJump

/-!
# Loops that the bypass can follow

`add_pcode` panics at an operation that it does not support, at a result that is a constant,
and at an operand that has no value yet. Which operands have one depends on the operations
before, and not on what the emulator computes.

Results:
1. `tracks_addPcode`: the names that are listed are an abstraction of the solver.
2. `calls_survive_iff`: a check of the operations says whether a sequence of calls gets through.
3. `loop_survives_iff`: and whether the peripheral gets through a polling loop.
-/

namespace FuguexPeripheral

open ByteStore Fallible Variables Runs

/-! ## The check -/

/-- The keys that are listed, a new one first. -/
abbrev Names :=
  List String

namespace Names

/-- An operand that can be read: a constant, a listed one, or one with a default value, or a
register of a size that is read from the state. -/
def knows (vars : String → Option Nat) (names : Names) (o : Operand) : Bool :=
  match genVariableName o with
  | none => true
  | some key => names.contains key || (vars key).isSome ||
      o.isRegister && (o.size == 1 || o.size == 2 || o.size == 4 || o.size == 8)

/-- Anything but a constant can be listed. -/
def insert (names : Names) (o : Operand) : Option Names :=
  (genVariableName o).map fun key => key :: names

/-- The names after a read, which lists its operand. -/
def read (vars : String → Option Nat) (names : Names) (o : Operand) : Option Names :=
  if names.knows vars o then
    match genVariableName o with
    | none => some names
    | some key => some (key :: names)
  else none

/-- The names after an operation, if the solver gets through. -/
def check (vars : String → Option Nat) (names : Names) : PCodeOp → Option Names
  | .load source destination => do
    let names ← names.insert source
    names.insert destination
  | .copy source destination => do
    let names ← names.read vars source
    names.insert destination
  | .store source destination => do
    let names ← names.read vars source
    names.insert destination
  | .binary _ result operand₀ operand₁ => do
    let names ← names.read vars operand₀
    let names ← names.read vars operand₁
    names.insert result
  | .unary _ result operand => do
    let names ← names.read vars operand
    names.insert result
  | .subpiece result operand amount => do
    let names ← names.read vars operand
    if amount.isConstant then names.insert result else none
  | .cbranch _ _ | .ret _ | .call _ | .branch _ | .skip => some names
  | .ibranch _ | .icall _ | .other _ => none

/-- The names after a sequence of operations. -/
def checkAll (vars : String → Option Nat) (ops : List PCodeOp) : Option Names :=
  ops.foldlM (check vars) []

end Names

/-! ## The solver -/

namespace ConstraintSolver

variable {X : SymExprApi} {O : Order} {vars : String → Option Nat} {c c' : ConstraintSolver X}
  {names : Names} {s : PCodeState O} {o : Operand}

/-- The solver has these default values, and lists these names. -/
structure HasNames (vars : String → Option Nat) (c : ConstraintSolver X) (names : Names) :
    Prop where
  defaults : c.defaultVariables = vars
  listed : ∀ key, (c.varList key).isSome = true ↔ key ∈ names

namespace DefinednessLemmas

theorem hasNames_new (vars : String → Option Nat) :
    HasNames vars (new.setDefaultVariables vars : ConstraintSolver X) [] :=
  ⟨rfl, fun key => by simp [new, setDefaultVariables]⟩

theorem hasNames_setVar (h : HasNames vars c names) (key : String) (v : Variables X) :
    HasNames vars (c.setVar key v) (key :: names) where
  defaults := h.defaults
  listed key' := by
    rw [List.mem_cons, ← h.listed key']
    by_cases hsame : key' = key
    · simp [hsame]
    · simp [hsame, varList_setVar_of_ne]

theorem tracks_varListInsert (h : HasNames vars c names) (o : Operand) (expr : Option X.Expr) :
    Tracks (fun r names => HasNames vars r.2 names ∧ ∃ key, genVariableName o = some key)
      (c.varListInsert o expr) (names.insert o) := by
  unfold Names.insert
  cases hkey : genVariableName o with
  | none =>
    unfold varListInsert
    rw [hkey]
    exact .error _
  | some key =>
    obtain ⟨e, c', hins⟩ := varListInsert_ok hkey c expr
    rw [hins]
    obtain ⟨key', v, hkey', -, rfl⟩ := varListInsert_cases hins
    cases hkey.symm.trans hkey'
    exact .ok ⟨hasNames_setVar h key v, key, rfl⟩

theorem tracks_insertResult (h : HasNames vars c names) (o : Operand) (e : X.Expr) :
    Tracks (HasNames vars) (c.insertResult o e) (names.insert o) := by
  have hins := tracks_varListInsert h o (some e)
  unfold insertResult
  cases hins' : c.varListInsert o (some e) with
  | error p =>
    rw [hins'] at hins
    generalize names.insert o = y at hins
    cases hins
    exact .error p
  | ok r =>
    rw [hins'] at hins
    generalize names.insert o = y at hins
    cases hins with
    | ok hr => exact .ok hr.1

theorem knows_iff (names : Names) (o : Operand) : names.knows vars o = true ↔
    ∀ key, genVariableName o = some key → key ∈ names ∨ (vars key).isSome = true ∨
      o.isRegister = true ∧ (o.size = 1 ∨ o.size = 2 ∨ o.size = 4 ∨ o.size = 8) := by
  unfold Names.knows
  cases genVariableName o with
  | none => simp
  | some key => simp [or_assoc]

theorem tracks_read (h : HasNames vars c names) (s : PCodeState O) (o : Operand) :
    Tracks (fun r names => HasNames vars r.2 names) (c.symexprFromOperandRead s o)
      (names.read vars o) := by
  unfold Names.read
  split
  next hknows =>
    cases hkey : genVariableName o with
    | none =>
      cases o with
      | constant value size => exact .ok h
      | address | register | «variable» => cases hkey
    | some key =>
      dsimp only
      cases hv : c.varList key with
      | some v =>
        rw [symexprFromOperandRead_of_key c s hkey, varListGet_listed hkey hv]
        have hmem := (h.listed key).mp (by rw [hv]; rfl)
        refine .ok ⟨h.defaults, fun key' => (h.listed key').trans ?_⟩
        exact ⟨List.mem_cons_of_mem _, fun hmem' => (List.mem_cons.mp hmem').elim (· ▸ hmem) id⟩
      | none =>
        have hnot : key ∉ names := fun hmem => by
          have hsome := (h.listed key).mpr hmem
          rw [hv] at hsome
          cases hsome
        have hcapture := ((knows_iff names o).mp hknows key hkey).resolve_left hnot
        rw [← h.defaults] at hcapture
        obtain ⟨v, hread, -⟩ := read_capture (s := s) hkey hv hcapture
        rw [hread]
        exact .ok (hasNames_setVar h key v)
  next hnot =>
    -- a read that goes on has found its operand listed or has captured it
    cases hread : c.symexprFromOperandRead s o with
    | error p => exact .error p
    | ok r =>
      obtain ⟨e, c'⟩ := r
      refine absurd ((knows_iff names o).mpr fun key hkey => ?_) hnot
      rcases read_cases hread with ⟨value, size, rfl, -, -⟩ |
        ⟨key', hkey', ⟨v, hv, -, -⟩ | ⟨hnone, -, -⟩⟩
      · cases hkey
      · cases hkey.symm.trans hkey'
        exact .inl ((h.listed key).mp (by rw [hv]; rfl))
      · cases hkey.symm.trans hkey'
        exact .inr (h.defaults ▸ capturable_of_read hkey hnone hread)

theorem tracks_addPcode (h : HasNames vars c names) (op : PCodeOp) (s : PCodeState O) :
    Tracks (HasNames vars) (c.addPcode op s) (names.check vars op) := by
  cases op with
  | load source destination =>
    refine (tracks_varListInsert h source none).bind fun r names hr => ?_
    obtain ⟨hr, key, hkey⟩ := hr
    dsimp only
    rw [hkey]
    let targets := r.2.varToSolve.insert key (r.1, s.getAddress source)
    exact tracks_insertResult (c := { r.2 with varToSolve := targets }) ⟨hr.defaults, hr.listed⟩
      destination _
  | copy source destination | store source destination =>
    exact (tracks_read h s source).bind fun r names hr => tracks_insertResult hr destination _
  | binary op result a b =>
    refine (tracks_read h s a).bind fun r names hr => ?_
    exact (tracks_read hr s b).bind fun r' names hr' => tracks_insertResult hr' result _
  | unary op result a =>
    exact (tracks_read h s a).bind fun r names hr => tracks_insertResult hr result _
  | subpiece result a amount =>
    refine (tracks_read h s a).bind fun r names hr => ?_
    cases amount with
    | constant value size => exact tracks_insertResult hr result _
    | address | register | «variable» => exact .error _
  | cbranch | ret | call | branch | skip => exact .ok h
  | ibranch | icall | other => exact .error _

end DefinednessLemmas

open DefinednessLemmas

/-- Whether the solver gets through a sequence of calls can be told from the operations and the
names with a default value, whatever the states of the emulator are. -/
theorem calls_survive_iff (vars : String → Option Nat) (calls : List (PCodeState O × PCodeOp)) :
    (∃ tr, ∃ c : ConstraintSolver X, tr.map Prod.snd = calls ∧ Built vars tr c) ↔
      (Names.checkAll vars (calls.map Prod.snd)).isSome = true := by
  have htracks : Tracks (HasNames vars)
      (calls.foldlM (fun c call => c.addPcode call.2 call.1)
        (new.setDefaultVariables vars : ConstraintSolver X))
      (Names.checkAll vars (calls.map Prod.snd)) :=
    Tracks.foldlM (fun call _ c names hc => tracks_addPcode hc call.2 call.1) (hasNames_new vars)
  rw [← htracks.isOk_iff]
  constructor
  · rintro ⟨tr, c, hcalls, hrun⟩
    exact ⟨c, exists_run_iff.mp ⟨tr, hcalls, hrun⟩⟩
  · rintro ⟨c, hloop⟩
    obtain ⟨tr, hcalls, hrun⟩ := exists_run_iff.mpr hloop
    exact ⟨tr, c, hcalls, hrun⟩

end ConstraintSolver

/-! ## The peripheral -/

namespace DummyPeripheral

variable {X : SymExprApi} {O : Order} {env : SolverEnv X} {h h' : DummyPeripheral X}
  {s s' : PCodeState O}

open ConstraintSolver DefinednessLemmas

/-- The operation is part of the body of a polling loop: it is not a branch that the peripheral
looks at, it does not load from its ranges, and it does not store to the polled location `A`. -/
def InBody (ranges : List (Address × Address)) (A : Address) (call : PCodeState O × PCodeOp) :
    Prop :=
  match call.2 with
  | .load source _ => ¬ InRange ranges (call.1.getAddress source)
  | .store _ destination => call.1.getAddress destination ≠ A
  | .cbranch _ _ | .icall _ | .ret _ => False
  | _ => True

/-- The hook is called for one operation after another, each in its state. -/
def hooked (env : SolverEnv X) (h : DummyPeripheral X) (calls : List (PCodeState O × PCodeOp)) :
    Except Panic (DummyPeripheral X) :=
  calls.foldlM (fun h call => (h.hookOperationStep env call.1 call.2).map Prod.fst) h

namespace DefinednessLemmas

/-- A session that is open for `event` and tracked, of which the solver lists the names. -/
structure Following (ranges : List (Address × Address)) (event : MemReadEvent)
    (vars : String → Option Nat) (h : DummyPeripheral X) (names : Names) : Prop where
  tracking : h.tracking = true
  ranges : h.addressRangeList = ranges
  event : h.lastMemReadEvent = event
  names : HasNames vars h.solver names

theorem hookOperationStep_of_tracking {op : PCodeOp} (harm : h.onOperation env s op = .ok (h', s))
    (ht : h'.tracking = true) : (h.hookOperationStep env s op).map Prod.fst =
      (h'.solver.addPcode op s).map fun solver =>
        { h' with solver := solver, pcodeCounter := h'.pcodeCounter + 1 } := by
  unfold hookOperationStep track
  rw [harm]
  dsimp only
  rw [if_pos ht]
  cases h'.solver.addPcode op s with
  | error p => rfl
  | ok solver => rfl

variable {ranges : List (Address × Address)} {event : MemReadEvent} {vars : String → Option Nat}
  {names : Names}

theorem tracks_hooked (hopen : h'.tracking = true) (hnames : HasNames vars h'.solver names)
    {op : PCodeOp} (harm : h.onOperation env s op = .ok (h', s)) :
    Tracks (Following h'.addressRangeList h'.lastMemReadEvent vars)
      ((h.hookOperationStep env s op).map Prod.fst) (names.check vars op) := by
  rw [hookOperationStep_of_tracking harm hopen]
  exact (tracks_addPcode hnames op s).map fun solver names' hsolver => ⟨hopen, rfl, rfl, hsolver⟩

/-- The load opens the session, and its operation is the first one tracked. -/
theorem tracks_load {source destination : Operand}
    (hin : InRange h.addressRangeList (s.getAddress source))
    (hmiss : h.cached (s.getAddress source) = none) (hcount : 0 ≤ h.forgiveFunCall) :
    Tracks (Following h.addressRangeList
        ⟨s.programCounter, s.getAddress source, destination.size, h.eventCounter⟩
        h.solverDefaultVars)
      ((h.hookOperationStep env s (.load source destination)).map Prod.fst)
      (Names.check h.solverDefaultVars [] (.load source destination)) := by
  have harm : h.onOperation env s (.load source destination) =
      .ok (h.startSession s (s.getAddress source) destination.size, s) := onLoad_miss hin hmiss
  refine tracks_hooked ?_ (hasNames_new h.solverDefaultVars) harm
  simp [tracking, startSession, hcount]

theorem tracks_body {call : PCodeState O × PCodeOp} (hbody : InBody ranges event.readAddress call)
    (hfollowing : Following ranges event vars h names) :
    Tracks (Following ranges event vars) ((h.hookOperationStep env call.1 call.2).map Prod.fst)
      (names.check vars call.2) := by
  obtain ⟨s, op⟩ := call
  obtain ⟨hopen, rfl, rfl, hnames⟩ := hfollowing
  refine tracks_hooked hopen hnames ?_
  cases op with
  | load source destination =>
    show h.onLoad s source destination = _
    rw [onLoad, loadLoop_eq]
    exact if_neg hbody
  | store source destination =>
    exact congrArg (fun h => Except.ok (h, s)) (if_neg (Ne.symm hbody))
  | cbranch | icall | ret => exact hbody.elim
  | copy | branch | ibranch | call | subpiece | binary | unary | skip | other => rfl

/-- The branch that closes the loop reads its condition. -/
theorem tracks_cbranch {target condition : Operand} (hback : target.branchOffset ≤ event.pc)
    (hfollowing : Following ranges event vars h names) (s : PCodeState O) :
    Tracks (fun _ _ => True) ((h.hookOperationStep env s (.cbranch target condition)).map Prod.fst)
      (names.read vars condition) := by
  obtain ⟨hopen, -, rfl, hnames⟩ := hfollowing
  have hstarted : h.solvingStarted = true := by
    unfold tracking at hopen
    exact (Bool.and_eq_true_iff.mp (Bool.and_eq_true_iff.mp hopen).1).1
  have hsolve : Tracks (fun _ _ => True) (h.solver.solve env s condition h.expectedValue)
      ((names.read vars condition).bind some) :=
    (tracks_read hnames s condition).bind fun _ _ _ => .ok trivial
  rw [CacheKeyLemmas.hookOperationStep_cbranch]
  refine Tracks.map (R := fun _ _ => True) (Tracks.map (R := fun _ _ => True) ?_ ?_) ?_
  · unfold onCBranch
    rw [checkLoop_closes hstarted hback]
    rw [Option.bind_fun_some] at hsolve
    dsimp only
    generalize h.solver.solve env s condition h.expectedValue = x at hsolve ⊢
    generalize names.read vars condition = y at hsolve ⊢
    cases hsolve with
    | error p => exact .error p
    | @ok r _ _ =>
      obtain ⟨result | result, solver⟩ := r
      · exact .ok trivial
      · exact .ok trivial
  · exact fun _ _ _ => trivial
  · exact fun _ _ _ => trivial

theorem isSome_read (names : Names) (o : Operand) :
    (names.read vars o).isSome = names.knows vars o := by
  unfold Names.read
  cases names.knows vars o with
  | true => cases genVariableName o <;> rfl
  | false => rfl

end DefinednessLemmas

open DefinednessLemmas

/-- Whether the peripheral gets through a polling loop can be told from its operations: the load
that opens the session, the body, and the branch back. Nothing that the emulator computes makes
a difference. -/
theorem loop_survives_iff {source destination target condition : Operand}
    (hin : InRange h.addressRangeList (s.getAddress source))
    (hmiss : h.cached (s.getAddress source) = none) (hcount : 0 ≤ h.forgiveFunCall)
    {body : List (PCodeState O × PCodeOp)}
    (hbody : ∀ call ∈ body, InBody h.addressRangeList (s.getAddress source) call)
    (hback : target.branchOffset ≤ s.programCounter) (s' : PCodeState O) :
    (∃ h', h.hooked env ((s, .load source destination) :: body ++
        [(s', .cbranch target condition)]) = .ok h') ↔
      (Names.checkAll h.solverDefaultVars (.load source destination :: body.map Prod.snd)).any
        (fun names => names.knows h.solverDefaultVars condition) = true := by
  let Follows := Following (X := X) h.addressRangeList
    ⟨s.programCounter, s.getAddress source, destination.size, h.eventCounter⟩ h.solverDefaultVars
  have hround : ∀ call ∈ body, ∀ h₁ names, Follows h₁ names → Tracks Follows
      ((h₁.hookOperationStep env call.1 call.2).map Prod.fst)
      (Names.check h.solverDefaultVars names call.2) :=
    fun call hcall h₁ names hfollows => tracks_body (hbody call hcall) hfollows
  have hloop : Tracks Follows (h.hooked env ((s, .load source destination) :: body))
      (Names.checkAll h.solverDefaultVars (.load source destination :: body.map Prod.snd)) := by
    unfold hooked Names.checkAll
    rw [List.foldlM_cons, List.foldlM_cons]
    exact (tracks_load hin hmiss hcount).bind fun h₁ names hfollows =>
      Tracks.foldlM hround hfollows
  -- the branch reads its condition with the names that the body has left
  have hwhole : Tracks (fun _ _ => True)
      (h.hooked env ((s, .load source destination) :: body ++ [(s', .cbranch target condition)]))
      ((Names.checkAll h.solverDefaultVars (.load source destination :: body.map Prod.snd)).bind
        fun names => names.read h.solverDefaultVars condition) := by
    unfold hooked
    rw [List.foldlM_append]
    refine hloop.bind fun h₁ names hfollows => ?_
    rw [List.foldlM_cons]
    simp only [List.foldlM_nil, bind_pure]
    exact tracks_cbranch hback hfollows s'
  rw [hwhole.isOk_iff]
  cases Names.checkAll h.solverDefaultVars (.load source destination :: body.map Prod.snd) with
  | none => rfl
  | some names => rw [Option.bind_some, isSome_read, Option.any_some]

namespace DefinednessLemmas

open SessionLemmas

def poller : DummyPeripheral termApi :=
  { new with addressRangeList := [(0x100, 0x1ff)] }

/-- A temporary of one byte. -/
def temporary (offset : Nat) : Operand :=
  .variable (.named "unique") offset 1

def loaded : Operand :=
  .register "r1" 4 4

/-- The lowest bit of the loaded word is compared with 0. -/
def testsBit : List (PCodeState .le × PCodeOp) :=
  [(pollState, .binary .intAnd loaded loaded (.constant 1 4)),
    (pollState, .binary .intEq (temporary 0) loaded (.constant 0 4))]

end DefinednessLemmas

open SessionLemmas

/-- The loop that tests a bit. The peripheral gets through when it branches on the result, and
not when it branches on a temporary that was written before the load. -/
theorem loop_survives_iff_testsBit :
    (∃ h', poller.hooked pollEnv ((pollState, .load pollRegister loaded) :: testsBit ++
      [(pollState, .cbranch (.address 0x10 4) (temporary 0))]) = .ok h') ∧
    ¬ ∃ h', poller.hooked pollEnv ((pollState, .load pollRegister loaded) :: testsBit ++
      [(pollState, .cbranch (.address 0x10 4) (temporary 8))]) = .ok h' := by
  have hbody : ∀ call ∈ testsBit,
      InBody poller.addressRangeList (pollState.getAddress pollRegister) call := by
    simp [testsBit, InBody]
  have hiff (condition : Operand) : (∃ h', poller.hooked pollEnv
      ((pollState, .load pollRegister loaded) :: testsBit ++
        [(pollState, .cbranch (.address 0x10 4) condition)]) = .ok h') ↔ _ :=
    loop_survives_iff (by decide +kernel) rfl (by decide) hbody (by decide +kernel) pollState
  exact ⟨(hiff _).mpr (by decide +kernel), fun h => absurd ((hiff _).mp h) (by decide +kernel)⟩

end DummyPeripheral

end FuguexPeripheral
