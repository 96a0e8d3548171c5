import FuguexPeripheral.Memo
import FuguexPeripheral.Bypass.Capture
import FuguexPeripheral.Bypass.LoopBreaking

/-!
# The cache of solutions

With `solving_results_cache_enable` the solution for an address is kept, and later loads
from the address are served from it, whichever loop they belong to. This module
compares the two runs, with and without the cache, over a sequence of polling loops.

Results:
1. `pass_miss`, `pass_hit`: one pass through a loop, from the idle state to the idle state.
2. `run_idle`: over a run, the cache is a memo table of the answers of the solver.
3. `memory_of_neverServed`: until a load is served from the cache, both runs leave the same
   memory.
4. `cache_agrees_iff`: a loop that the run without the cache breaks is broken with the
   cache if and only if the cached value for its address ends it.
5. `cache_keeps_waiting`: two loops at one address that wait for different values.
-/

namespace FuguexPeripheral

open ByteStore PCodeOp

variable {X : SymExprApi}

/-- A polling loop, and the state that it starts in but for the memory. -/
structure Visit where
  loop : PollingLoop
  state : PCodeState .le

namespace Visit

/-- The polled address. -/
def address (v : Visit) : Address :=
  v.state.getAddress v.loop.pointer

def start (v : Visit) (m : Store) : PCodeState .le :=
  v.state.withMemory m

/-- The loop polls 4 or 8 bytes in one of the ranges. -/
structure Polls (ranges : List (Address × Address)) (v : Visit) : Prop where
  wellFormed : v.loop.WellFormed
  size : v.loop.destination.size = 4 ∨ v.loop.destination.size = 8
  inRange : InRange ranges v.address

instance (ranges : List (Address × Address)) (v : Visit) : Decidable (v.Polls ranges) :=
  decidable_of_iff
    (v.loop.WellFormed ∧ (v.loop.destination.size = 4 ∨ v.loop.destination.size = 8) ∧
      InRange ranges v.address)
    ⟨fun h => ⟨h.1, h.2.1, h.2.2⟩, fun h => ⟨h.1, h.2, h.3⟩⟩

/-- What the solver returns for the polled address at the closing branch. -/
def solved (env : SolverEnv X) (v : Visit) (hm : DummyPeripheral X × Store) : Option Nat :=
  match emulate env v.loop.upToBranch (hm.1, v.start hm.2) with
  | .ok (h, s) => h.solved env (s.setPc v.loop.branchPc) v.loop.branch v.address
  | .error _ => none

/-- One pass through the loop under the hooks, its closing branch included. -/
def pass (env : SolverEnv X) (hm : DummyPeripheral X × Store) (v : Visit) :
    Except Panic (DummyPeripheral X × Store) :=
  match emulate env v.loop.upToBranch (hm.1, v.start hm.2) with
  | .error p => .error p
  | .ok (h, s) =>
    match h.hookOperationStep env (s.setPc v.loop.branchPc) v.loop.branch with
    | .error p => .error p
    | .ok (h, s) => .ok (h, s.memory)

/-- The next iteration, under the hooks, computes a condition that does not branch back. -/
def FallsThrough (env : SolverEnv X) (v : Visit) (hm : DummyPeripheral X × Store) : Prop :=
  ∃ h s, emulate env v.loop.upToBranch (hm.1, v.start hm.2) = .ok (h, s) ∧
    s.value v.loop.condition = 0

def Exits (v : Visit) (x : Nat) : Prop :=
  v.loop.Exits v.state x

instance (v : Visit) (x : Nat) : Decidable (v.Exits x) :=
  inferInstanceAs (Decidable (v.loop.Exits v.state x))

def answer (env : SolverEnv X) (v : Visit) : Option Nat :=
  v.loop.answer env v.state

end Visit

open Visit

/-- A run through a sequence of loops. -/
def passes (env : SolverEnv X) (hm : DummyPeripheral X × Store) (visits : List Visit) :
    Except Panic (DummyPeripheral X × Store) :=
  visits.foldlM (Visit.pass env) hm

/-- The peripheral as it is configured for such a run. -/
def configured (ranges : List (Address × Address)) (cache : Bool) : DummyPeripheral X :=
  (ranges.foldl DummyPeripheral.addAddressRange .new).enableSolvingResultCache cache

/-- The state of the peripheral between two loops. -/
structure Idle (ranges : List (Address × Address)) (cache : Bool) (h : DummyPeripheral X) :
    Prop where
  ranges : h.addressRangeList = ranges
  cache : h.solvingResultsCacheEnable = cache
  stopped : h.solvingStarted = false
  calls : h.forgiveFunCall = 0
  noDefaults : ∀ key, h.solverDefaultVars key = none

/-- The values in the cache. -/
def cachedValues (h : DummyPeripheral X) (a : Address) : Option Nat :=
  (h.solvingResults a).map SolvingResult.value

/-- No load of a run through the loops is served from the cache. -/
def NeverServed (env : SolverEnv X) (hm : DummyPeripheral X × Store) (visits : List Visit) :
    Prop :=
  ∀ before v after c, visits = before ++ v :: after → passes env hm before = .ok c →
    cachedValues c.1 v.address = none

namespace CacheLemmas

variable {env : SolverEnv X} {ranges : List (Address × Address)} {cache : Bool}
  {h : DummyPeripheral X} {m : Store} {v : Visit}

theorem addAddressRange_foldl (ranges : List (Address × Address)) (h : DummyPeripheral X) :
    ranges.foldl DummyPeripheral.addAddressRange h =
      { h with addressRangeList := h.addressRangeList ++ ranges } := by
  induction ranges generalizing h with
  | nil => rw [List.append_nil]; rfl
  | cons r ranges ih =>
    rw [List.foldl_cons, ih]
    unfold DummyPeripheral.addAddressRange
    rw [List.append_assoc]
    rfl

theorem idle_configured (ranges : List (Address × Address)) (cache : Bool) :
    Idle ranges cache (configured ranges cache : DummyPeripheral X) := by
  unfold configured
  rw [addAddressRange_foldl]
  exact ⟨List.nil_append _, rfl, rfl, rfl, fun _ => rfl⟩

theorem cachedValues_configured (ranges : List (Address × Address)) (cache : Bool) :
    cachedValues (configured ranges cache : DummyPeripheral X) = fun _ => none := by
  unfold configured
  rw [addAddressRange_foldl]
  rfl

/-! ## The start of a loop -/

theorem start_getAddress (hl : v.loop.WellFormed) (m : Store) :
    (v.start m).getAddress v.loop.pointer = v.address :=
  PCodeState.value_withMemory_of_not_inRam hl.pointer.2

theorem isRegister_not_inRam {o : Operand} (hreg : o.isRegister = true) : o.inRam = false := by
  cases o with
  | register => rfl
  | constant | address | «variable» => cases hreg

/-- The memory is no input of the loop. -/
theorem start_sameInputs (hl : v.loop.WellFormed) (m : Store) :
    v.loop.SameInputs (v.start m) v.state := by
  refine ⟨start_getAddress hl m, fun r hr => ?_⟩
  exact PCodeState.getOperandU8_withMemory_of_not_inRam
    (isRegister_not_inRam (List.mem_filter.mp hr).2)

/-! ## Loads -/

theorem load_miss (env : SolverEnv X) (hidle : Idle ranges cache h) (hv : v.Polls ranges)
    (hmiss : h.cached v.address = none) (m : Store) :
    ∃ h', h.hookOperationStep env ((v.start m).setPc v.loop.loadPc) v.loop.load =
      .ok (h', (v.start m).setPc v.loop.loadPc) := by
  have haddr : ((v.start m).setPc v.loop.loadPc).getAddress v.loop.pointer = v.address :=
    (PCodeState.value_setPc _ _ _).trans (start_getAddress hv.wellFormed m)
  obtain ⟨c, key, n, hload, -, -⟩ := PollingLoop.opens env
    (s := (v.start m).setPc v.loop.loadPc) hv.wellFormed
    (by rw [haddr, hidle.ranges]; exact hv.inRange) (by rw [haddr]; exact hmiss)
    (by rw [hidle.calls]; decide) hidle.noDefaults
  exact ⟨_, hload⟩

/-- A load that hits the cache puts the cached value where it loads from. -/
theorem load_hit {r : SolvingResult} (hidle : Idle ranges cache h) (hv : v.Polls ranges)
    (hhit : h.cached v.address = some r) :
    h.hookOperationStep env ((v.start m).setPc v.loop.loadPc) v.loop.load =
      .ok ({ h with pcodeCounter := h.pcodeCounter + 1 },
        ((v.start m).setPc v.loop.loadPc).write v.address v.loop.destination.size r.value) := by
  have haddr : ((v.start m).setPc v.loop.loadPc).getAddress v.loop.pointer = v.address :=
    (PCodeState.value_setPc _ _ _).trans (start_getAddress hv.wellFormed m)
  have hslice : DummyPeripheral.cachedSlice .le v.loop.destination.size =
      some v.loop.destination.size := by
    rcases hv.size with hn | hn
    · rw [hn]
      rfl
    · rw [hn]
      rfl
  have hbytes : (encode .le 8 r.value).take v.loop.destination.size =
      encode .le v.loop.destination.size r.value := by
    refine take_encodeLE ?_ r.value
    rcases hv.size with hn | hn
    · exact hn.le.trans (by decide)
    · exact hn.le
  have harm : h.onOperation env ((v.start m).setPc v.loop.loadPc) v.loop.load =
      .ok (h, ((v.start m).setPc v.loop.loadPc).write v.address v.loop.destination.size
        r.value) := by
    have hload := DummyPeripheral.onLoad_hit (h := h) (s := (v.start m).setPc v.loop.loadPc)
      (by rw [haddr, hidle.ranges]; exact hv.inRange) (by rw [haddr]; exact hhit) hslice
    rw [haddr, hbytes] at hload
    exact hload
  refine DummyPeripheral.hookOperationStep_untracked harm ?_
  simp [DummyPeripheral.tracking, hidle.stopped]

/-! ## The next iteration -/

/-- Under the hooks the condition is computed from what the load hook leaves. -/
theorem emulate_condition {h' h₁ : DummyPeripheral X} {s' s₁ s : PCodeState .le}
    {l : PollingLoop} (hl : l.WellFormed)
    (hload : h.hookOperationStep env (s.setPc l.loadPc) l.load = .ok (h₁, s₁))
    (hemu : emulate env l.upToBranch (h, s) = .ok (h', s')) :
    s'.value l.condition = l.conditionValue s₁ := by
  rw [PollingLoop.upToBranch, emulate_cons hload] at hemu
  exact emulate_value hl.keyed.toApart hl.straight hemu fun _ _ _ => rfl

theorem fallsThrough_iff {h' : DummyPeripheral X} {s' : PCodeState .le}
    (hemu : emulate env v.loop.upToBranch (h, v.start m) = .ok (h', s')) :
    v.FallsThrough env (h, m) ↔ s'.value v.loop.condition = 0 := by
  constructor
  · rintro ⟨h'', s'', hemu', hzero⟩
    rw [show emulate env v.loop.upToBranch (h, v.start m) = _ from hemu'] at hemu
    cases hemu
    exact hzero
  · exact fun hzero => ⟨h', s', hemu, hzero⟩

theorem fallsThrough_miss (hidle : Idle ranges cache h) (hv : v.Polls ranges)
    (hmiss : h.cached v.address = none) :
    v.FallsThrough env (h, m) ↔ v.Exits (m.load .le v.address v.loop.destination.size) := by
  obtain ⟨h₁, hload⟩ := load_miss env hidle hv hmiss m
  have haddr := start_getAddress hv.wellFormed m
  obtain ⟨c, n, s', written, key, hemu, -⟩ := PollingLoop.emulate_session env (s := v.start m)
    hv.wellFormed (by rw [haddr, hidle.ranges]; exact hv.inRange) (by rw [haddr]; exact hmiss)
    (by rw [hidle.calls]; decide) hidle.noDefaults
  have hagain : v.loop.Again v.state m ((v.start m).setPc v.loop.loadPc) := by
    obtain ⟨hregs, hptr, hmem⟩ := PollingLoop.again_withMemory hv.wellFormed v.state m
    exact ⟨hregs, (PCodeState.value_setPc _ _ _).trans hptr, hmem⟩
  rw [fallsThrough_iff hemu, emulate_condition hv.wellFormed hload hemu,
    PollingLoop.conditionValue_eq hv.wellFormed hagain]
  rfl

/-- A loop whose address is cached never sees its session. -/
theorem emulate_hit (env : SolverEnv X) {r : SolvingResult} (hidle : Idle ranges cache h)
    (hv : v.Polls ranges) (hhit : h.cached v.address = some r) (m : Store) :
    ∃ n s',
      emulate env v.loop.upToBranch (h, v.start m) = .ok ({ h with pcodeCounter := n }, s') := by
  obtain ⟨n, s', hemu⟩ := emulate_untracked env
    (h := { h with pcodeCounter := h.pcodeCounter + 1 })
    (s := v.loop.load.exec (((v.start m).setPc v.loop.loadPc).write v.address
      v.loop.destination.size r.value))
    (straightLine_all hv.wellFormed.straight)
    (by simp [DummyPeripheral.tracking, hidle.stopped])
  exact ⟨n, s', (emulate_cons (load_hit hidle hv hhit)).trans hemu⟩

theorem fallsThrough_hit {r : SolvingResult} (hidle : Idle ranges cache h) (hv : v.Polls ranges)
    (hhit : h.cached v.address = some r) : v.FallsThrough env (h, m) ↔ v.Exits r.value := by
  obtain ⟨n, s', hemu⟩ := emulate_hit env hidle hv hhit m
  let s₁ := ((v.start m).setPc v.loop.loadPc).write v.address v.loop.destination.size r.value
  have hagain : v.loop.Again v.state s₁.memory s₁ := by
    obtain ⟨hregs, hptr, -⟩ := PollingLoop.again_withMemory hv.wellFormed v.state m
    refine ⟨?_, ?_, rfl⟩
    · exact (PCodeState.spaces_setValues_of_ne _ _ _ (by decide)).trans hregs
    · exact (PCodeState.value_setValues_of_not_inRam hv.wellFormed.pointer.2).trans
        ((PCodeState.value_setPc _ _ _).trans hptr)
  have hread : s₁.memory.load .le v.address v.loop.destination.size =
      r.value % 2 ^ (8 * v.loop.destination.size) :=
    PCodeState.readMemory_write _ _ _ _
  rw [fallsThrough_iff hemu, emulate_condition hv.wellFormed (load_hit hidle hv hhit) hemu,
    PollingLoop.conditionValue_eq hv.wellFormed hagain,
    show v.state.getAddress v.loop.pointer = v.address from rfl, hread, PollingLoop.exitValue_mod]
  rfl

/-! ## One pass -/

/-- `pass_session`, with the answer as a function of the state that the loop starts in. -/
theorem pass_answer (env : SolverEnv X) {l : PollingLoop} {s s₀ : PCodeState .le}
    (hl : l.WellFormed) (hsame : l.SameInputs s s₀)
    (hin : InRange h.addressRangeList (s.getAddress l.pointer))
    (hmiss : h.cached (s.getAddress l.pointer) = none) (hcalls : 0 ≤ h.forgiveFunCall)
    (hdefaults : ∀ key, h.solverDefaultVars key = none) :
    ∃ h₁ s₁ constraint solver n,
      emulate env l.upToBranch (h, s) = .ok (h₁, s₁) ∧
      (∀ σ, X.Satisfies σ [constraint] ↔ l.SolverExits s (σ l.ivar)) ∧
      l.answer env s₀ =
        (env.solve env.newIndependent (X.ivar l.ivar) [constraint]).1.bind toU64 ∧
      h₁.solved env (s₁.setPc l.branchPc) l.branch (s.getAddress l.pointer) = l.answer env s₀ ∧
      h₁ = { h.startSession (s.setPc l.loadPc) (s.getAddress l.pointer) l.destination.size with
              solver := h₁.solver, pcodeCounter := h₁.pcodeCounter } ∧
      h₁.hookOperationStep env (s₁.setPc l.branchPc) l.branch = .ok
        ({ (DummyPeripheral.writeSolution ({ h₁.stop with solver := solver },
            s₁.setPc l.branchPc) (s.getAddress l.pointer, l.answer env s₀)).1 with
              pcodeCounter := n },
          (DummyPeripheral.writeSolution ({ h₁.stop with solver := solver },
            s₁.setPc l.branchPc) (s.getAddress l.pointer, l.answer env s₀)).2) := by
  obtain ⟨h₁, s₁, constraint, answer, solver, n, hemu, hsat, hanswer, hsolved, hh₁, hstep⟩ :=
    PollingLoop.pass_session env hl hin hmiss hcalls hdefaults
  obtain ⟨hadds, hun⟩ := PollingLoop.emulate_solver hl hsame hin hmiss hcalls hdefaults hemu
  have heq := PollingLoop.solved_eq_answer env hl hsame hadds hun
    (by rw [hh₁]; rfl) (by rw [hh₁]; rfl) (by rw [hh₁]; rfl)
  rw [hsolved] at heq
  rw [heq] at hsolved hanswer hstep
  exact ⟨h₁, s₁, constraint, solver, n, hemu, hsat, hanswer, hsolved, hh₁, hstep⟩

/-- The answer is the solver's solution of a constraint that says that the loop ends. -/
theorem answer_eq (env : SolverEnv X) {l : PollingLoop} (hl : l.WellFormed)
    (s : PCodeState .le) :
    ∃ constraint, (∀ σ, X.Satisfies σ [constraint] ↔ l.SolverExits s (σ l.ivar)) ∧
      l.answer env s =
        (env.solve env.newIndependent (X.ivar l.ivar) [constraint]).1.bind toU64 := by
  -- in a run of a peripheral for this address alone
  let a := s.getAddress l.pointer
  have hidle : Idle [(a, a)] false (configured [(a, a)] false : DummyPeripheral X) :=
    idle_configured _ _
  have hin : InRange (configured [(a, a)] false : DummyPeripheral X).addressRangeList a := by
    rw [hidle.ranges]
    exact ⟨(a, a), List.mem_cons_self, le_refl a, le_refl a⟩
  have hcalls : 0 ≤ (configured [(a, a)] false : DummyPeripheral X).forgiveFunCall := by
    rw [hidle.calls]
    decide
  obtain ⟨-, -, constraint, -, -, -, hsat, hanswer, -⟩ :=
    pass_answer env hl ⟨rfl, fun _ _ => rfl⟩ hin
      (DummyPeripheral.cached_of_disabled hidle.cache a) hcalls hidle.noDefaults
  exact ⟨constraint, hsat, hanswer⟩

/-- A solution enters the cache, if it is enabled and does not have one. -/
theorem cachedValues_writeSolution {g : DummyPeripheral X} {s : PCodeState .le} {a : Address}
    (hcache : g.solvingResultsCacheEnable = true) (hevent : g.lastMemReadEvent.readAddress = a)
    (hmiss : g.solvingResults a = none) (answer : Option Nat) :
    cachedValues (DummyPeripheral.writeSolution (g, s) (a, answer)).1 =
      Memo.record (cachedValues g) (a, answer) := by
  have hnone : cachedValues g a = none := by simp [cachedValues, hmiss]
  rw [Memo.record_of_none hnone]
  cases answer with
  | none => exact (Function.update_eq_self_iff.mpr hnone.symm).symm
  | some x =>
    unfold DummyPeripheral.writeSolution
    dsimp only
    rw [if_pos hcache]
    funext a'
    by_cases hsame : a' = a
    · simp [cachedValues, DummyPeripheral.cacheResult, hevent, hsame]
    · simp [cachedValues, DummyPeripheral.cacheResult, hevent, hsame]

theorem idle_writeSolution {g : DummyPeripheral X} (hidle : Idle ranges cache g)
    (s : PCodeState .le) (kv : Address × Option Nat) (n : Nat) :
    Idle ranges cache { (DummyPeripheral.writeSolution (g, s) kv).1 with pcodeCounter := n } := by
  obtain ⟨results, hhook⟩ := DummyPeripheral.writeSolutions_hook [kv] (g, s)
  rw [show (DummyPeripheral.writeSolution (g, s) kv).1 = _ from hhook]
  exact ⟨hidle.ranges, hidle.cache, hidle.stopped, hidle.calls, hidle.noDefaults⟩

/-- Once the loop is closed, the session leaves behind what it loaded. -/
theorem idle_answered {h₁ : DummyPeripheral X} {s : PCodeState .le} {a : Address} {size : Nat}
    (hidle : Idle ranges cache h) (solver : ConstraintSolver X)
    (hh₁ : h₁ = { h.startSession s a size with
      solver := h₁.solver, pcodeCounter := h₁.pcodeCounter }) :
    Idle ranges cache { h₁.stop with solver := solver } ∧
      h₁.solvingResults = h.solvingResults ∧ h₁.lastMemReadEvent.readAddress = a ∧
      h₁.lastMemReadEvent.size = size := by
  rw [hh₁]
  exact ⟨⟨hidle.ranges, hidle.cache, rfl, hidle.calls, hidle.noDefaults⟩, rfl, rfl, rfl⟩

/-- The answer to a miss is recorded. -/
theorem cachedValues_answered {g : DummyPeripheral X} {s : PCodeState .le} {a : Address}
    (hidle : Idle ranges true h) (hidle' : Idle ranges true g) (hmiss : h.cached a = none)
    (hresults : g.solvingResults = h.solvingResults)
    (hevent : g.lastMemReadEvent.readAddress = a) (answer : Option Nat) :
    cachedValues (DummyPeripheral.writeSolution (g, s) (a, answer)).1 =
      Memo.record (cachedValues h) (a, answer) := by
  have hnone : g.solvingResults a = none := by
    rw [hresults]
    simpa [DummyPeripheral.cached, hidle.cache] using hmiss
  have hvalues : cachedValues g = cachedValues h := by
    unfold cachedValues
    rw [hresults]
  rw [← hvalues]
  exact cachedValues_writeSolution hidle'.cache hevent hnone answer

/-- A pass whose load misses the cache: the solver answers as it always does for this
loop, and the answer is written and recorded. -/
theorem pass_miss (env : SolverEnv X) (hidle : Idle ranges cache h) (hv : v.Polls ranges)
    (hmiss : h.cached v.address = none) (m : Store) :
    v.solved env (h, m) = v.answer env ∧
      ∃ h' m', Visit.pass env (h, m) v = .ok (h', m') ∧ Idle ranges cache h' ∧
        (cache = true →
          cachedValues h' = Memo.record (cachedValues h) (v.address, v.answer env)) ∧
        ∀ x, v.answer env = some x →
          m'.load .le v.address v.loop.destination.size =
            x % 2 ^ (8 * v.loop.destination.size) := by
  have hl := hv.wellFormed
  have haddr := start_getAddress hl m
  have hin : InRange h.addressRangeList ((v.start m).getAddress v.loop.pointer) := by
    rw [haddr, hidle.ranges]
    exact hv.inRange
  have hmiss' : h.cached ((v.start m).getAddress v.loop.pointer) = none := by
    rw [haddr]
    exact hmiss
  have hcalls : 0 ≤ h.forgiveFunCall := by
    rw [hidle.calls]
    decide
  obtain ⟨h₁, s₁, constraint, solver, n, hemu, -, -, hsolved, hh₁, hstep⟩ :=
    pass_answer env hl (start_sameInputs hl m) hin hmiss' hcalls hidle.noDefaults
  rw [haddr] at hsolved hstep hh₁
  obtain ⟨hidle', hresults, hevent, hsize⟩ := idle_answered hidle solver hh₁
  let g : DummyPeripheral X := { h₁.stop with solver := solver }
  have hloaded : g.lastMemReadEvent.size = v.loop.destination.size := hsize
  let w := DummyPeripheral.writeSolution (g, s₁.setPc v.loop.branchPc) (v.address, v.answer env)
  refine ⟨?_, { w.1 with pcodeCounter := n }, w.2.memory, ?_, idle_writeSolution hidle' _ _ n,
    ?_, ?_⟩
  · unfold Visit.solved
    dsimp only
    rw [hemu]
    exact hsolved
  · unfold Visit.pass
    dsimp only
    rw [hemu]
    dsimp only
    rw [hstep]
    rfl
  · rintro rfl
    exact cachedValues_answered hidle hidle' hmiss hresults hevent (v.answer env)
  · intro x hx
    have hread := PollingLoop.readMemory_writeSolution (s := s₁.setPc v.loop.branchPc)
      (a := v.address) (v := x) hloaded hl
    rw [← hx] at hread
    exact hread

/-- What a solution does to the state depends on the size of the load alone. -/
theorem writeSolution_state {g₁ g₂ : DummyPeripheral X}
    (hsize : g₁.lastMemReadEvent.size = g₂.lastMemReadEvent.size) (s : PCodeState .le)
    (kv : Address × Option Nat) :
    (DummyPeripheral.writeSolution (g₁, s) kv).2 =
      (DummyPeripheral.writeSolution (g₂, s) kv).2 := by
  unfold DummyPeripheral.writeSolution
  cases kv.2 with
  | none => rfl
  | some x =>
    dsimp only
    rw [apply_ite Prod.snd, apply_ite Prod.snd, ite_self, ite_self, hsize]

/-- Passes of two peripherals whose loads miss leave the same memory. -/
theorem pass_miss_memory (env : SolverEnv X) {cache₁ cache₂ : Bool} {h₁ h₂ : DummyPeripheral X}
    {p₁ p₂ : DummyPeripheral X × Store} (hidle₁ : Idle ranges cache₁ h₁)
    (hidle₂ : Idle ranges cache₂ h₂) (hv : v.Polls ranges) (hmiss₁ : h₁.cached v.address = none)
    (hmiss₂ : h₂.cached v.address = none) (hpass₁ : Visit.pass env (h₁, m) v = .ok p₁)
    (hpass₂ : Visit.pass env (h₂, m) v = .ok p₂) : p₁.2 = p₂.2 := by
  have hl := hv.wellFormed
  have haddr := start_getAddress hl m
  obtain ⟨g₁, s₁, -, solver₁, n₁, hemu₁, -, -, -, hg₁, hstep₁⟩ :=
    pass_answer env hl (start_sameInputs hl m) (by rw [haddr, hidle₁.ranges]; exact hv.inRange)
      (by rw [haddr]; exact hmiss₁) (by rw [hidle₁.calls]; decide) hidle₁.noDefaults
  obtain ⟨g₂, s₂, -, solver₂, n₂, hemu₂, -, -, -, hg₂, hstep₂⟩ :=
    pass_answer env hl (start_sameInputs hl m) (by rw [haddr, hidle₂.ranges]; exact hv.inRange)
      (by rw [haddr]; exact hmiss₂) (by rw [hidle₂.calls]; decide) hidle₂.noDefaults
  obtain ⟨-, -, -, hsize₁⟩ := idle_answered hidle₁ solver₁ hg₁
  obtain ⟨-, -, -, hsize₂⟩ := idle_answered hidle₂ solver₂ hg₂
  -- the load hook leaves the state, and the body then does the same to it
  have hstate : s₁ = s₂ := by
    obtain ⟨k₁, hload₁⟩ := load_miss env hidle₁ hv hmiss₁ m
    obtain ⟨k₂, hload₂⟩ := load_miss env hidle₂ hv hmiss₂ m
    rw [PollingLoop.upToBranch, emulate_cons hload₁] at hemu₁
    rw [PollingLoop.upToBranch, emulate_cons hload₂] at hemu₂
    exact emulate_state (straightLine_all hl.straight) hemu₁ hemu₂
  unfold Visit.pass at hpass₁ hpass₂
  dsimp only at hpass₁ hpass₂
  rw [hemu₁] at hpass₁
  rw [hemu₂] at hpass₂
  dsimp only at hpass₁ hpass₂
  rw [hstep₁] at hpass₁
  rw [hstep₂] at hpass₂
  cases hpass₁
  cases hpass₂
  dsimp only
  rw [hstate, haddr]
  refine congrArg PCodeState.memory (writeSolution_state ?_ _ _)
  exact hsize₁.trans hsize₂.symm

/-- A pass whose load hits the cache changes nothing in the peripheral that matters. -/
theorem pass_hit (env : SolverEnv X) {r : SolvingResult} (hidle : Idle ranges cache h)
    (hv : v.Polls ranges) (hhit : h.cached v.address = some r) (m : Store) :
    ∃ h' m', Visit.pass env (h, m) v = .ok (h', m') ∧ Idle ranges cache h' ∧
      h'.solvingResults = h.solvingResults := by
  obtain ⟨n, s', hemu⟩ := emulate_hit env hidle hv hhit m
  have hcheck : ({ h with pcodeCounter := n } : DummyPeripheral X).checkLoop
      (s'.setPc v.loop.branchPc) (.address v.loop.target v.loop.targetSize) v.loop.condition =
        ({ h with pcodeCounter := n }, none) := by
    simp [DummyPeripheral.checkLoop, hidle.stopped]
  have harm : ({ h with pcodeCounter := n } : DummyPeripheral X).onOperation env
      (s'.setPc v.loop.branchPc) v.loop.branch =
        .ok ({ h with pcodeCounter := n }, s'.setPc v.loop.branchPc) := by
    show DummyPeripheral.onCBranch env _ _ _ _ = _
    unfold DummyPeripheral.onCBranch
    rw [hcheck]
  have hstep := DummyPeripheral.hookOperationStep_untracked harm
    (by simp [DummyPeripheral.tracking, hidle.stopped])
  refine ⟨{ h with pcodeCounter := n + 1 }, (s'.setPc v.loop.branchPc).memory, ?_,
    ⟨hidle.ranges, hidle.cache, hidle.stopped, hidle.calls, hidle.noDefaults⟩, rfl⟩
  unfold Visit.pass
  dsimp only
  rw [hemu]
  dsimp only
  rw [hstep]

/-- Over a run the cache is a memo table of the answers of the solver. -/
theorem run_idle (env : SolverEnv X) {visits : List Visit} (hidle : Idle ranges cache h)
    (hvisits : ∀ v ∈ visits, v.Polls ranges) (m : Store) :
    ∃ h' m', passes env (h, m) visits = .ok (h', m') ∧ Idle ranges cache h' ∧
      (cache = true → cachedValues h' =
        (visits.map fun v => (v.address, v.answer env)).foldl Memo.record (cachedValues h)) := by
  induction visits generalizing h m with
  | nil => exact ⟨h, m, rfl, hidle, fun _ => rfl⟩
  | cons v visits ih =>
    have hv := hvisits v List.mem_cons_self
    have hpass : ∃ h' m', Visit.pass env (h, m) v = .ok (h', m') ∧ Idle ranges cache h' ∧
        (cache = true →
          cachedValues h' = Memo.record (cachedValues h) (v.address, v.answer env)) := by
      cases hc : h.cached v.address with
      | none =>
        obtain ⟨-, h', m', hpass, hidle', hvalues, -⟩ := pass_miss env hidle hv hc m
        exact ⟨h', m', hpass, hidle', hvalues⟩
      | some r =>
        obtain ⟨h', m', hpass, hidle', hresults⟩ := pass_hit env hidle hv hc m
        refine ⟨h', m', hpass, hidle', fun htrue => ?_⟩
        have hhit : h.solvingResults v.address = some r := by
          simpa [DummyPeripheral.cached, hidle.cache, htrue] using hc
        have hsome : cachedValues h v.address = some r.value := by simp [cachedValues, hhit]
        rw [Memo.record_of_some hsome]
        unfold cachedValues
        rw [hresults]
    obtain ⟨h₁, m₁, hpass, hidle₁, hvalues₁⟩ := hpass
    obtain ⟨h', m', hrun, hidle', hvalues'⟩ :=
      ih hidle₁ (fun v' hv' => hvisits v' (List.mem_cons_of_mem _ hv')) m₁
    refine ⟨h', m', ?_, hidle', fun htrue => ?_⟩
    · unfold passes at hrun ⊢
      rw [List.foldlM_cons, hpass]
      exact hrun
    · rw [hvalues' htrue, hvalues₁ htrue]
      rfl

theorem passes_cons {hm : DummyPeripheral X × Store} {p : DummyPeripheral X × Store}
    (hpass : Visit.pass env hm v = .ok p) (visits : List Visit) :
    passes env hm (v :: visits) = passes env p visits := by
  rw [passes, List.foldlM_cons, hpass]
  rfl

theorem passes_append {hm p : DummyPeripheral X × Store} {visits : List Visit}
    (hrun : passes env hm visits = .ok p) (v : Visit) :
    passes env hm (visits ++ [v]) = Visit.pass env p v := by
  unfold passes at hrun ⊢
  rw [List.foldlM_append, hrun]
  exact bind_pure (Visit.pass env p v)

theorem cached_of_cachedValues {a : Address} (hnone : cachedValues h a = none) :
    h.cached a = none := by
  unfold DummyPeripheral.cached
  split
  · exact Option.map_eq_none_iff.mp hnone
  · rfl

/-- Until the cache serves a load the two runs leave the same memory. -/
theorem memory_of_neverServed {visits : List Visit} {h₁ h₂ : DummyPeripheral X}
    {p₁ p₂ : DummyPeripheral X × Store} (hidle₁ : Idle ranges false h₁)
    (hidle₂ : Idle ranges true h₂) (hvisits : ∀ v ∈ visits, v.Polls ranges)
    (hserved : NeverServed env (h₂, m) visits) (hrun₁ : passes env (h₁, m) visits = .ok p₁)
    (hrun₂ : passes env (h₂, m) visits = .ok p₂) : p₁.2 = p₂.2 := by
  induction visits generalizing h₁ h₂ m with
  | nil =>
    cases hrun₁
    cases hrun₂
    rfl
  | cons v visits ih =>
    have hv := hvisits v List.mem_cons_self
    have hmiss₁ := DummyPeripheral.cached_of_disabled hidle₁.cache v.address
    have hmiss₂ := cached_of_cachedValues (hserved [] v visits (h₂, m) rfl rfl)
    obtain ⟨-, g₁, m₁, hpass₁, hidle₁', -, -⟩ := pass_miss env hidle₁ hv hmiss₁ m
    obtain ⟨-, g₂, m₂, hpass₂, hidle₂', -, -⟩ := pass_miss env hidle₂ hv hmiss₂ m
    have hsame : m₁ = m₂ := pass_miss_memory env hidle₁ hidle₂ hv hmiss₁ hmiss₂ hpass₁ hpass₂
    subst hsame
    refine ih hidle₁' hidle₂' (fun v' hv' => hvisits v' (List.mem_cons_of_mem _ hv')) ?_
      ((passes_cons hpass₁ visits).symm.trans hrun₁) ((passes_cons hpass₂ visits).symm.trans hrun₂)
    intro before u after c hsplit hrun
    exact hserved (v :: before) u after c (by rw [hsplit, List.cons_append])
      ((passes_cons hpass₂ before).trans hrun)

/-- The solver that prefers a model in which the loop ends. -/
theorem answer_preferring {σ : Model} (hv : v.Polls ranges)
    (hx : v.loop.SolverExits v.state (σ v.loop.ivar))
    (hlt : σ v.loop.ivar < 2 ^ (8 * v.loop.destination.size)) :
    v.answer (SolverEnv.preferring X σ) = some (σ v.loop.ivar) := by
  obtain ⟨constraint, hsat, hanswer⟩ :=
    answer_eq (SolverEnv.preferring X σ) hv.wellFormed v.state
  exact hanswer.trans (PollingLoop.answer_preferring hv.wellFormed hsat hx hlt)

theorem exits_mod (x : Nat) :
    v.Exits (x % 2 ^ (8 * v.loop.destination.size)) ↔ v.Exits x := by
  unfold Exits PollingLoop.Exits
  rw [PollingLoop.exitValue_mod]

/-- A pass of the run without the cache, and its next iteration. -/
theorem pass_plain (env : SolverEnv X) (hidle : Idle ranges false h) (hv : v.Polls ranges)
    (m : Store) :
    v.solved env (h, m) = v.answer env ∧
      ∃ p', Visit.pass env (h, m) v = .ok p' ∧
        (v.FallsThrough env p' ↔ v.Exits (p'.2.load .le v.address v.loop.destination.size)) ∧
        ∀ x, v.answer env = some x → (v.FallsThrough env p' ↔ v.Exits x) := by
  have hmiss := DummyPeripheral.cached_of_disabled hidle.cache v.address
  obtain ⟨hsolved, h', m', hpass, hidle', -, hwritten⟩ := pass_miss env hidle hv hmiss m
  have hfalls : v.FallsThrough env (h', m') ↔
      v.Exits (m'.load .le v.address v.loop.destination.size) := fallsThrough_miss hidle' hv
    (DummyPeripheral.cached_of_disabled hidle'.cache _)
  refine ⟨hsolved, (h', m'), hpass, hfalls, fun x hx => ?_⟩
  rw [hfalls, hwritten x hx, exits_mod]

/-- A pass of the run with the cache, and its next iteration: the cached value counts, or
the answer if there is none, or else what the memory holds. -/
theorem pass_cached (env : SolverEnv X) (hidle : Idle ranges true h) (hv : v.Polls ranges)
    (m : Store) :
    ∃ p', Visit.pass env (h, m) v = .ok p' ∧
      (∀ x, (cachedValues h v.address).or (v.answer env) = some x →
        (v.FallsThrough env p' ↔ v.Exits x)) ∧
      ((cachedValues h v.address).or (v.answer env) = none →
        (v.FallsThrough env p' ↔
          v.Exits (p'.2.load .le v.address v.loop.destination.size))) := by
  cases hc : h.cached v.address with
  | none =>
    obtain ⟨-, h', m', hpass, hidle', hvalues, -⟩ := pass_miss env hidle hv hc m
    have hnone : cachedValues h v.address = none := by
      simpa [cachedValues, DummyPeripheral.cached, hidle.cache] using hc
    have hafter : cachedValues h' v.address = v.answer env := by
      rw [hvalues rfl, Memo.record_apply, hnone, Option.none_or, if_pos rfl]
    rw [hnone, Option.none_or]
    refine ⟨(h', m'), hpass, fun x hx => ?_, fun hx => ?_⟩
    -- the next iteration is served with the answer of this one
    · obtain ⟨r, hr, rfl⟩ := Option.map_eq_some_iff.mp (hafter.trans hx)
      exact fallsThrough_hit hidle' hv (by simpa [DummyPeripheral.cached, hidle'.cache] using hr)
    · exact fallsThrough_miss hidle' hv (cached_of_cachedValues (hafter.trans hx))
  | some r =>
    obtain ⟨h', m', hpass, hidle', hresults⟩ := pass_hit env hidle hv hc m
    have hhit : h.solvingResults v.address = some r := by
      simpa [DummyPeripheral.cached, hidle.cache] using hc
    refine ⟨(h', m'), hpass, fun x hx => ?_, fun hx => by simp [cachedValues, hhit] at hx⟩
    have hx' : r.value = x := by simpa [cachedValues, hhit] using hx
    rw [← hx']
    exact fallsThrough_hit hidle' hv
      (by simpa [DummyPeripheral.cached, hidle'.cache, hresults] using hhit)

end CacheLemmas

open CacheLemmas

/-- Take a sequence of polling loops and a last one that falls through on its next iteration
in the run without the cache. In the run with the cache it falls through if and only if the
cached value for its address, if there is one, ends it; without a cached value it does if the
solver returns one, and otherwise if what this run's memory holds there ends it, as it does
as long as no load was served from the cache. A cached value is what the solver returned, in
the run without the cache, to an earlier loop at that address. -/
theorem cache_agrees_iff (env : SolverEnv X) {ranges : List (Address × Address)}
    {visits : List Visit} {w : Visit} (hvisits : ∀ v ∈ w :: visits, v.Polls ranges) (m : Store) :
    ∃ plain plain' cached cached',
      passes env (configured ranges false, m) visits = .ok plain ∧
      Visit.pass env plain w = .ok plain' ∧
      passes env (configured ranges true, m) visits = .ok cached ∧
      Visit.pass env cached w = .ok cached' ∧
      (w.FallsThrough env plain' →
        (w.FallsThrough env cached' ↔
          match cachedValues cached.1 w.address, w.solved env plain with
          | some x, _ => w.Exits x
          | none, some _ => True
          | none, none => w.Exits (cached'.2.load .le w.address w.loop.destination.size))) ∧
      (NeverServed env (configured ranges true, m) (visits ++ [w]) →
        w.FallsThrough env plain' → w.FallsThrough env cached') ∧
      ∀ x, cachedValues cached.1 w.address = some x →
        ∃ before v after p p', visits = before ++ v :: after ∧ v.address = w.address ∧
          passes env (configured ranges false, m) before = .ok p ∧ v.solved env p = some x ∧
          Visit.pass env p v = .ok p' ∧ (v.FallsThrough env p' ↔ v.Exits x) := by
  have hw := hvisits w List.mem_cons_self
  have hpast : ∀ v ∈ visits, v.Polls ranges := fun v hv => hvisits v (List.mem_cons_of_mem _ hv)
  obtain ⟨h₁, m₁, hplain, hidle₁, -⟩ := run_idle env (idle_configured ranges false) hpast m
  obtain ⟨h₂, m₂, hcached, hidle₂, hvalues⟩ := run_idle env (idle_configured ranges true) hpast m
  obtain ⟨hsolved, plain', hpass₁, hmemory₁, hfalls₁⟩ := pass_plain env hidle₁ hw m₁
  obtain ⟨cached', hpass₂, hserved₂, hmemory₂⟩ := pass_cached env hidle₂ hw m₂
  refine ⟨_, plain', _, cached', hplain, hpass₁, hcached, hpass₂, ?_, ?_, ?_⟩
  · intro hfalls
    rw [hsolved]
    cases hvalue : cachedValues h₂ w.address with
    | some x => exact hserved₂ x (by rw [hvalue, Option.some_or])
    | none =>
      cases hanswer : w.answer env with
      | some y =>
        have hexits : w.Exits y := (hfalls₁ y hanswer).mp hfalls
        exact iff_of_true ((hserved₂ y (by rw [hvalue, Option.none_or, hanswer])).mpr hexits)
          trivial
      | none => exact hmemory₂ (by rw [hvalue, Option.none_or, hanswer])
  · intro hserved hfalls
    have hvalue : cachedValues h₂ w.address = none := hserved visits w [] _ rfl hcached
    have hsame : plain'.2 = cached'.2 :=
      memory_of_neverServed (idle_configured ranges false) (idle_configured ranges true)
        (fun v hv => hvisits v (by simpa [or_comm] using hv)) hserved
        ((passes_append hplain w).trans hpass₁) ((passes_append hcached w).trans hpass₂)
    cases hanswer : w.answer env with
    | some y =>
      exact (hserved₂ y (by rw [hvalue, Option.none_or, hanswer])).mpr
        ((hfalls₁ y hanswer).mp hfalls)
    | none =>
      rw [hmemory₂ (by rw [hvalue, Option.none_or, hanswer]), ← hsame]
      exact hmemory₁.mp hfalls
  · intro x hx
    rw [show cachedValues h₂ w.address = _ from congrFun (hvalues rfl) w.address,
      cachedValues_configured, Memo.foldl_record, Option.none_or] at hx
    obtain ⟨queries, rest, hsplit, -⟩ := Memo.first_eq_some hx
    obtain ⟨before, tail, rfl, hbefore, htail⟩ := List.map_eq_append_iff.mp hsplit
    obtain ⟨v, after, rfl, hv, -⟩ := List.map_eq_cons_iff.mp htail
    obtain ⟨haddr, hanswer⟩ := Prod.mk.inj hv
    obtain ⟨h, m', hrun, hidle, -⟩ := run_idle env (idle_configured ranges false)
      (fun u hu => hpast u (List.mem_append_left _ hu)) m
    obtain ⟨hsolved', p', hpass, -, hfalls⟩ := pass_plain env hidle
      (hpast v (List.mem_append_right _ List.mem_cons_self)) m'
    exact ⟨before, v, after, _, p', rfl, haddr, hrun, hsolved'.trans hanswer, hpass,
      hfalls x hanswer⟩

/-! ## Two loops at one address -/

/-- `while (*pointer != value)`, at the address 16. -/
def waitFor (pointer : Operand) (value : Nat) : Visit where
  loop :=
    { PollingLoop.waitLoop with
      pointer := pointer
      body := [(0x1002, .binary .intNotEq (.register "z" 12 1) (.register "r1" 4 4)
        (.constant value 4))] }
  state := PCodeState.setValue { spaces := fun _ _ => 0, programCounter := 0x1000 } pointer 16

def waitOne : Visit :=
  waitFor (.register "r0" 0 4) 1

def waitTwo : Visit :=
  waitFor (.register "r3" 16 4) 2

theorem waits_poll : ∀ v ∈ [waitTwo, waitOne], v.Polls [(0, 0xff)] := by
  decide +kernel

/-- A model in which both loops end. -/
def waitModel : Model :=
  fun x => if x.name = "r0" then 1 else 2

theorem cache_agrees_iff_waits :
    ∃ plain plain' cached cached',
      passes (SolverEnv.preferring termApi waitModel) (configured [(0, 0xff)] false, fun _ => 0)
        [waitOne] = .ok plain ∧
      Visit.pass (SolverEnv.preferring termApi waitModel) plain waitTwo = .ok plain' ∧
      passes (SolverEnv.preferring termApi waitModel) (configured [(0, 0xff)] true, fun _ => 0)
        [waitOne] = .ok cached ∧
      Visit.pass (SolverEnv.preferring termApi waitModel) cached waitTwo = .ok cached' ∧
      (waitTwo.FallsThrough (SolverEnv.preferring termApi waitModel) plain' →
        (waitTwo.FallsThrough (SolverEnv.preferring termApi waitModel) cached' ↔
          match cachedValues cached.1 waitTwo.address,
            waitTwo.solved (SolverEnv.preferring termApi waitModel) plain with
          | some x, _ => waitTwo.Exits x
          | none, some _ => True
          | none, none => waitTwo.Exits (cached'.2.load .le waitTwo.address 4))) := by
  obtain ⟨plain, plain', cached, cached', h₁, h₂, h₃, h₄, hiff, -⟩ :=
    cache_agrees_iff (SolverEnv.preferring termApi waitModel) waits_poll fun _ => 0
  exact ⟨plain, plain', cached, cached', h₁, h₂, h₃, h₄, hiff⟩

/-- A loop waits for a 1, and then another one for a 2, at one address. Without the cache
both are broken; with the cache the second loop is served the 1 of the first for ever. -/
theorem cache_keeps_waiting :
    ∃ env : SolverEnv termApi, ∃ plain plain' cached cached',
      passes env (configured [(0, 0xff)] false, fun _ => 0) [waitOne] = .ok plain ∧
      Visit.pass env plain waitTwo = .ok plain' ∧ waitTwo.FallsThrough env plain' ∧
      passes env (configured [(0, 0xff)] true, fun _ => 0) [waitOne] = .ok cached ∧
      Visit.pass env cached waitTwo = .ok cached' ∧ ¬ waitTwo.FallsThrough env cached' := by
  have hone : waitOne.Polls [(0, 0xff)] :=
    waits_poll waitOne (List.mem_cons_of_mem _ List.mem_cons_self)
  have htwo : waitTwo.Polls [(0, 0xff)] := waits_poll waitTwo List.mem_cons_self
  let env := SolverEnv.preferring termApi waitModel
  have hanswer₁ : waitOne.answer env = some 1 :=
    answer_preferring hone (by decide +kernel) (by decide +kernel)
  have hanswer₂ : waitTwo.answer env = some 2 :=
    answer_preferring htwo (by decide +kernel) (by decide +kernel)
  have hpast : ∀ v ∈ [waitOne], v.Polls [(0, 0xff)] := fun v hv =>
    waits_poll v (List.mem_cons_of_mem _ hv)
  obtain ⟨h₁, m₁, hplain, hidle₁, -⟩ :=
    run_idle env (idle_configured [(0, 0xff)] false) hpast fun _ => 0
  obtain ⟨h₂, m₂, hcached, hidle₂, hvalues⟩ :=
    run_idle env (idle_configured [(0, 0xff)] true) hpast fun _ => 0
  obtain ⟨-, plain', hpass₁, -, hfalls₁⟩ := pass_plain env hidle₁ htwo m₁
  obtain ⟨cached', hpass₂, hfalls₂, -⟩ := pass_cached env hidle₂ htwo m₂
  have hvalue : cachedValues h₂ waitTwo.address = some 1 := by
    rw [hvalues rfl, cachedValues_configured, Memo.foldl_record, Option.none_or, List.map_cons,
      hanswer₁]
    decide +kernel
  refine ⟨env, _, plain', _, cached', hplain, hpass₁, ?_, hcached, hpass₂, ?_⟩
  · rw [hfalls₁ 2 hanswer₂]
    decide +kernel
  · rw [hfalls₂ 1 (by rw [hvalue, Option.some_or])]
    decide +kernel

end FuguexPeripheral
