import FuguexPeripheral.Bypass.DummyPeripheral
import FuguexPeripheral.Bypass.Solutions

/-!
# What a step of the peripheral can do

One lemma for each arm of the hook that says everything it can do, so that the
invariants need not look into the arms again.

Results:
1. `onLoad_cases`, `checkLoop_cases`, `onCBranch_cases`, `countFunCall_cases`: the arms.
2. `hookOperationStep_cases`: a step is an arm, and then at most one `add_pcode`.
3. `writeSolutions_memory`: solutions are written at their addresses only.
-/

namespace FuguexPeripheral

open ByteStore

namespace DummyPeripheral

variable {X : SymExprApi} {O : Order} {env : SolverEnv X} {h h' : DummyPeripheral X}
  {s s' : PCodeState O}

/-! ## Load -/

theorem cached_of_disabled (hcache : h.solvingResultsCacheEnable = false) (a : Address) :
    h.cached a = none := by
  unfold cached
  rw [hcache]
  rfl

/-- A second range that holds the address changes nothing more. -/
theorem serveLoad_idem {a n : Nat} {hs hs' : DummyPeripheral X × PCodeState O}
    (hload : serveLoad a n hs = .ok hs') : serveLoad a n hs' = .ok hs' := by
  unfold serveLoad at hload
  split at hload
  next r hr =>
    split at hload
    next m hm =>
      cases hload
      unfold serveLoad
      dsimp only
      rw [hr]
      dsimp only
      rw [hm]
      dsimp only
      rw [PCodeState.setValues_setValues _ _ rfl]
    next => cases hload
  next hr =>
    cases hload
    have hr' : (hs.1.startSession hs.2 a n).cached a = none := hr
    unfold serveLoad
    dsimp only
    rw [hr']
    rfl

theorem loadLoop_eq (a n : Nat) (ranges : List (Address × Address))
    (hs : DummyPeripheral X × PCodeState O) :
    loadLoop a n ranges hs = if InRange ranges a then serveLoad a n hs else .ok hs := by
  induction ranges generalizing hs with
  | nil =>
    rw [if_neg]
    · rfl
    · rintro ⟨r, hr, -⟩
      cases hr
  | cons range ranges ih =>
    unfold loadLoop
    by_cases hin : range.1 ≤ a ∧ a ≤ range.2
    · rw [if_pos hin, if_pos ⟨range, List.mem_cons_self, hin⟩]
      cases hload : serveLoad a n hs with
      | error p => rfl
      | ok hs' =>
        dsimp only
        rw [ih, serveLoad_idem hload, ite_self]
    · have hiff : InRange (range :: ranges) a ↔ InRange ranges a := by
        constructor
        · rintro ⟨r, hr, hra⟩
          rcases List.mem_cons.mp hr with rfl | hr
          · exact absurd hra hin
          · exact ⟨r, hr, hra⟩
        · rintro ⟨r, hr, hra⟩
          exact ⟨r, List.mem_cons_of_mem _ hr, hra⟩
      rw [if_neg hin, ih]
      exact if_congr hiff.symm rfl rfl

/-- A load that misses the cache opens a session. -/
theorem onLoad_miss {source destination : Operand}
    (hin : InRange h.addressRangeList (s.getAddress source))
    (hmiss : h.cached (s.getAddress source) = none) :
    h.onLoad s source destination =
      .ok (h.startSession s (s.getAddress source) destination.size, s) := by
  rw [onLoad, loadLoop_eq, if_pos hin]
  unfold serveLoad
  dsimp only
  rw [hmiss]

/-- A load that hits the cache is served from it. -/
theorem onLoad_hit {source destination : Operand} {r : SolvingResult} {n : Nat}
    (hin : InRange h.addressRangeList (s.getAddress source))
    (hhit : h.cached (s.getAddress source) = some r)
    (hslice : cachedSlice O destination.size = some n) :
    h.onLoad s source destination =
      .ok (h, s.setValues (s.getAddress source) ((encode O 8 r.value).take n)) := by
  rw [onLoad, loadLoop_eq, if_pos hin]
  unfold serveLoad
  dsimp only
  rw [hhit]
  dsimp only
  rw [hslice]

/-- A load from outside the ranges changes nothing; one inside is served from the
cache, or opens a session. -/
theorem onLoad_cases {source destination : Operand}
    (hload : h.onLoad s source destination = .ok (h', s')) :
    (¬ InRange h.addressRangeList (s.getAddress source) ∧ h' = h ∧ s' = s) ∨
    (InRange h.addressRangeList (s.getAddress source) ∧
      ∃ r n, h.cached (s.getAddress source) = some r ∧
        cachedSlice O destination.size = some n ∧ h' = h ∧
        s' = s.setValues (s.getAddress source) ((encode O 8 r.value).take n)) ∨
    (InRange h.addressRangeList (s.getAddress source) ∧
      h.cached (s.getAddress source) = none ∧
      h' = h.startSession s (s.getAddress source) destination.size ∧ s' = s) := by
  rw [onLoad, loadLoop_eq] at hload
  by_cases hin : InRange h.addressRangeList (s.getAddress source)
  · rw [if_pos hin] at hload
    unfold serveLoad at hload
    split at hload
    next r hr =>
      split at hload
      next n hn =>
        cases hload
        exact .inr (.inl ⟨hin, r, n, hr, hn, rfl, rfl⟩)
      next => cases hload
    next hr =>
      cases hload
      exact .inr (.inr ⟨hin, hr, rfl, rfl⟩)
  · rw [if_neg hin] at hload
    cases hload
    exact .inl ⟨hin, rfl, rfl⟩

/-! ## CBranch -/

/-- Without a session a branch is ignored; a backward one closes the session and
solves; the first forward one is forgiven, the second closes the session. -/
theorem checkLoop_cases (h : DummyPeripheral X) (s : PCodeState O)
    (destination condition : Operand) :
    (h.solvingStarted = false ∧ h.checkLoop s destination condition = (h, none)) ∨
    (h.solvingStarted = true ∧ destination.branchOffset ≤ h.lastMemReadEvent.pc ∧
      h.checkLoop s destination condition =
        (h.stop, some ⟨h.solver, condition, h.expectedValue⟩)) ∨
    (h.solvingStarted = true ∧ h.lastMemReadEvent.pc < destination.branchOffset ∧
      h.forgiveJump + 1 > 1 ∧
      h.checkLoop s destination condition =
        ({ h with forgiveJump := h.forgiveJump + 1 }.stop, none)) ∨
    (h.solvingStarted = true ∧ h.lastMemReadEvent.pc < destination.branchOffset ∧
      ¬ h.forgiveJump + 1 > 1 ∧
      h.checkLoop s destination condition =
        ({ h with
            forgiveJump := h.forgiveJump + 1
            forgiveBranchCondition := (s.getOperandU8 condition).toUInt32 }, none)) := by
  unfold checkLoop
  split
  next hstarted =>
    refine .inr ?_
    dsimp only
    split
    next heq => exact .inl ⟨hstarted, heq.le, rfl⟩
    next hne =>
      split
      next hlt => exact .inl ⟨hstarted, hlt.le, rfl⟩
      next hge =>
        have hlt := lt_of_le_of_ne (not_lt.mp hge) (Ne.symm hne)
        split
        next hgt => exact .inr (.inl ⟨hstarted, hlt, hgt, rfl⟩)
        next hngt => exact .inr (.inr ⟨hstarted, hlt, hngt, rfl⟩)
  next hstarted => exact .inl ⟨Bool.eq_false_iff.mpr hstarted, rfl⟩

/-- A branch back closes the session and solves. -/
theorem checkLoop_closes (hopen : h.solvingStarted = true) {destination : Operand}
    (hle : destination.branchOffset ≤ h.lastMemReadEvent.pc) (s : PCodeState O)
    (condition : Operand) : h.checkLoop s destination condition =
      (h.stop, some ⟨h.solver, condition, h.expectedValue⟩) := by
  rcases checkLoop_cases h s destination condition with
    ⟨hnot, -⟩ | ⟨-, -, heq⟩ | ⟨-, hlt, -, -⟩ | ⟨-, hlt, -, -⟩
  · exact absurd (hopen.symm.trans hnot) (by decide)
  · exact heq
  · exact absurd hle (Nat.not_le.mpr hlt)
  · exact absurd hle (Nat.not_le.mpr hlt)

theorem checkLoop_call {destination condition : Operand} {call : SolveCall X}
    (hcall : (h.checkLoop s destination condition).2 = some call) :
    h.solvingStarted = true ∧ destination.branchOffset ≤ h.lastMemReadEvent.pc ∧
      call = ⟨h.solver, condition, h.expectedValue⟩ := by
  rcases checkLoop_cases h s destination condition with
    ⟨-, heq⟩ | ⟨hstarted, hle, heq⟩ | ⟨-, -, -, heq⟩ | ⟨-, -, -, heq⟩
  · rw [heq] at hcall
    cases hcall
  · rw [heq] at hcall
    cases hcall
    exact ⟨hstarted, hle, rfl⟩
  · rw [heq] at hcall
    cases hcall
  · rw [heq] at hcall
    cases hcall

theorem checkLoop_solves {destination condition : Operand} {h₁ : DummyPeripheral X}
    {call : SolveCall X} (heq : h.checkLoop s destination condition = (h₁, some call)) :
    h₁ = h.stop ∧ call = ⟨h.solver, condition, h.expectedValue⟩ := by
  rcases checkLoop_cases h s destination condition with
    ⟨-, heq'⟩ | ⟨-, -, heq'⟩ | ⟨-, -, -, heq'⟩ | ⟨-, -, -, heq'⟩
  · cases heq'.symm.trans heq
  · cases heq'.symm.trans heq
    exact ⟨rfl, rfl⟩
  · cases heq'.symm.trans heq
  · cases heq'.symm.trans heq

/-- The loop check keeps the configuration, the solver and the cache. -/
theorem checkLoop_fields (h : DummyPeripheral X) (s : PCodeState O)
    (destination condition : Operand) :
    (h.checkLoop s destination condition).1.addressRangeList = h.addressRangeList ∧
      (h.checkLoop s destination condition).1.solver = h.solver ∧
      (h.checkLoop s destination condition).1.solvingResultsCacheEnable =
        h.solvingResultsCacheEnable ∧
      (h.checkLoop s destination condition).1.solvingResults = h.solvingResults := by
  rcases checkLoop_cases h s destination condition with
    ⟨-, heq⟩ | ⟨-, -, heq⟩ | ⟨-, -, -, heq⟩ | ⟨-, -, -, heq⟩
  all_goals rw [heq]; exact ⟨rfl, rfl, rfl, rfl⟩

/-! ## Writing the solutions -/

/-- Besides the cache, the hook keeps all its fields. -/
theorem writeSolutions_hook (solutions : List (Address × Option Nat))
    (hs : DummyPeripheral X × PCodeState O) :
    ∃ results, (solutions.foldl writeSolution hs).1 =
      { hs.1 with solvingResults := results } := by
  induction solutions generalizing hs with
  | nil => exact ⟨hs.1.solvingResults, rfl⟩
  | cons kv solutions ih =>
    obtain ⟨results, hresults⟩ := ih (writeSolution hs kv)
    have hone : ∃ results', (writeSolution hs kv).1 =
        { hs.1 with solvingResults := results' } := by
      unfold writeSolution
      cases kv.2 with
      | none => exact ⟨hs.1.solvingResults, rfl⟩
      | some v =>
        dsimp only
        split
        · exact ⟨_, rfl⟩
        · exact ⟨hs.1.solvingResults, rfl⟩
    obtain ⟨results', hresults'⟩ := hone
    refine ⟨results, ?_⟩
    rw [List.foldl_cons, hresults, hresults']

/-- A write of `n` bytes at `a` does not reach `x`. -/
def Outside (x a n : Nat) : Prop :=
  x < a ∨ a + n ≤ x

theorem writeSolution_memory {kv : Address × Option Nat} {x : Nat}
    {hs : DummyPeripheral X × PCodeState O}
    (hout : kv.2.isSome → Outside x kv.1 hs.1.lastMemReadEvent.size) :
    (writeSolution hs kv).2.memory x = hs.2.memory x := by
  unfold writeSolution
  cases hv : kv.2 with
  | none => rfl
  | some v =>
    rw [hv] at hout
    dsimp only
    rw [apply_ite Prod.snd, ite_self]
    split
    · rw [PCodeState.write, PCodeState.memory_setValues]
      refine Store.write_apply_outside ?_
      rw [length_encode]
      exact hout rfl
    · rfl

/-- The solutions are written to the bytes from their addresses on, at the size of
the load. -/
theorem writeSolutions_memory {solutions : List (Address × Option Nat)} {x : Nat}
    {hs : DummyPeripheral X × PCodeState O}
    (hout : ∀ kv ∈ solutions, Outside x kv.1 hs.1.lastMemReadEvent.size) :
    (solutions.foldl writeSolution hs).2.memory x = hs.2.memory x := by
  induction solutions generalizing hs with
  | nil => rfl
  | cons kv solutions ih =>
    obtain ⟨results, hresults⟩ := writeSolutions_hook [kv] hs
    have hevent : (writeSolution hs kv).1.lastMemReadEvent = hs.1.lastMemReadEvent := by
      rw [show (writeSolution hs kv).1 = _ from hresults]
    rw [List.foldl_cons, ih]
    · exact writeSolution_memory fun _ => hout kv List.mem_cons_self
    · intro kv' hkv'
      rw [hevent]
      exact hout kv' (List.mem_cons_of_mem _ hkv')

/-- A branch either leaves the solver alone, or it closes the session, solves and
writes what the solver found. -/
theorem onCBranch_cases {destination condition : Operand}
    (hbranch : h.onCBranch env s destination condition = .ok (h', s')) :
    ((h.checkLoop s destination condition).2 = none ∧ s' = s ∧
      h' = (h.checkLoop s destination condition).1) ∨
    (h.checkLoop s destination condition =
        (h.stop, some ⟨h.solver, condition, h.expectedValue⟩) ∧
      ∃ result solver, h.solver.solve env s condition h.expectedValue = .ok (result, solver) ∧
        (h', s') = ((result.map fun r => env.resultOrder (r.entries.map fun e => (e.1, e.2))).getD
          []).foldl writeSolution ({ h.stop with solver := solver }, s)) := by
  unfold onCBranch at hbranch
  split at hbranch
  next h₁ heq =>
    cases hbranch
    rw [heq]
    exact .inl ⟨rfl, rfl, rfl⟩
  next h₁ call heq =>
    obtain ⟨rfl, rfl⟩ := checkLoop_solves heq
    refine .inr ⟨heq, ?_⟩
    split at hbranch
    next => cases hbranch
    next solver hsolve =>
      cases hbranch
      exact ⟨none, solver, hsolve, rfl⟩
    next result solver hsolve =>
      refine ⟨some result, solver, hsolve, ?_⟩
      exact (Except.ok.inj hbranch).symm

/-- A branch that solves closes the session. -/
theorem onCBranch_open {destination condition : Operand}
    (hbranch : h.onCBranch env s destination condition = .ok (h', s'))
    (hopen : h'.solvingStarted = true) :
    (h.checkLoop s destination condition).2 = none ∧ s' = s ∧
      h' = (h.checkLoop s destination condition).1 := by
  rcases onCBranch_cases hbranch with hnone | ⟨-, result, solver, -, hfold⟩
  · exact hnone
  · obtain ⟨results, hresults⟩ := writeSolutions_hook
      ((result.map fun r => env.resultOrder (r.entries.map fun e => (e.1, e.2))).getD [])
      ({ h.stop with solver := solver }, s)
    rw [← hfold] at hresults
    dsimp only at hresults
    rw [hresults] at hopen
    cases hopen

/-! ## ICall and Return -/

theorem countFunCall_cases (h : DummyPeripheral X) (change : Int32) :
    (h.solvingStarted = false ∧ h.countFunCall change = h) ∨
    (h.solvingStarted = true ∧ h.forgiveFunCall + change ≠ 0 ∧
      h.countFunCall change = { h with forgiveFunCall := h.forgiveFunCall + change }.stop) ∨
    (h.solvingStarted = true ∧ h.forgiveFunCall + change = 0 ∧
      h.countFunCall change = { h with forgiveFunCall := h.forgiveFunCall + change }) := by
  unfold countFunCall
  split
  next hstarted =>
    dsimp only
    split
    next hne => exact .inr (.inl ⟨hstarted, hne, rfl⟩)
    next heq => exact .inr (.inr ⟨hstarted, not_not.mp heq, rfl⟩)
  next hstarted => exact .inl ⟨Bool.eq_false_iff.mpr hstarted, rfl⟩

theorem countFunCall_fields (h : DummyPeripheral X) (change : Int32) :
    (h.countFunCall change).addressRangeList = h.addressRangeList ∧
      (h.countFunCall change).solver = h.solver ∧
      (h.countFunCall change).solvingResultsCacheEnable = h.solvingResultsCacheEnable ∧
      (h.countFunCall change).solvingResults = h.solvingResults := by
  rcases countFunCall_cases h change with ⟨-, heq⟩ | ⟨-, -, heq⟩ | ⟨-, -, heq⟩
  all_goals rw [heq]; exact ⟨rfl, rfl, rfl, rfl⟩

/-! ## The whole step -/

/-- A step is the arm of its operation, then `add_pcode` if the session is tracked. -/
theorem hookOperationStep_cases {op : PCodeOp}
    (hstep : h.hookOperationStep env s op = .ok (h', s')) :
    ∃ h₁ solver, h.onOperation env s op = .ok (h₁, s') ∧
      (h₁.tracking = false ∧ solver = h₁.solver ∨
        h₁.tracking = true ∧ h₁.solver.addPcode op s' = .ok solver) ∧
      h' = { h₁ with solver := solver, pcodeCounter := h₁.pcodeCounter + 1 } := by
  unfold hookOperationStep at hstep
  split at hstep
  next => cases hstep
  next h₁ s₁ harm =>
    split at hstep
    next => cases hstep
    next h₂ htrack =>
      unfold track at htrack
      cases hstep
      split at htrack
      next ht =>
        split at htrack
        next solver hadd =>
          cases htrack
          exact ⟨h₁, solver, harm, .inr ⟨ht, hadd⟩, rfl⟩
        next => cases htrack
      next ht =>
        cases htrack
        exact ⟨h₁, h₁.solver, harm, .inl ⟨Bool.eq_false_iff.mpr ht, rfl⟩, rfl⟩

theorem hookOperationStep_tracked {op : PCodeOp} {solver : ConstraintSolver X}
    (harm : h.onOperation env s op = .ok (h', s')) (ht : h'.tracking = true)
    (hadd : h'.solver.addPcode op s' = .ok solver) :
    h.hookOperationStep env s op =
      .ok ({ h' with solver := solver, pcodeCounter := h'.pcodeCounter + 1 }, s') := by
  unfold hookOperationStep track
  rw [harm]
  dsimp only
  rw [if_pos ht, hadd]

theorem hookOperationStep_untracked {op : PCodeOp}
    (harm : h.onOperation env s op = .ok (h', s')) (ht : h'.tracking = false) :
    h.hookOperationStep env s op =
      .ok ({ h' with pcodeCounter := h'.pcodeCounter + 1 }, s') := by
  unfold hookOperationStep track
  rw [harm]
  dsimp only
  rw [if_neg (ne_true_of_eq_false ht)]

theorem step_operation {op : PCodeOp} (hstep : Step env h (.operation s op) h') :
    ∃ s', h.hookOperationStep env s op = .ok (h', s') := by
  unfold Step PeripheralEvent.apply at hstep
  dsimp only at hstep
  cases hres : h.hookOperationStep env s op with
  | error p =>
    rw [hres] at hstep
    cases hstep
  | ok r =>
    rw [hres] at hstep
    cases hstep
    exact ⟨r.2, rfl⟩

end DummyPeripheral

end FuguexPeripheral
