import FuguexPeripheral.Bypass.PollingLoop

/-!
# Registers are captured as they were

The solver captures a register at its first read, in a state that has moved on since the
load. A register that is not listed has not been written, so the solver could as well
have read every register before the loop.

Results:
1. `addPcode_start`: adding an operation in the current state or in the first state is
   the same.
2. `emulate_start`: the solver after the body, from the first state alone.
3. `solved_eq_answer`: so what the solver returns is a function of the state that the loop
   starts in.
-/

namespace FuguexPeripheral

open ByteStore Fallible PCodeOp Variables ConstraintSolver

variable {X : SymExprApi} {O : Order}

/-- The registers that are not listed are as they were in `s₀`. -/
def Untouched (operands : List Operand) (c : ConstraintSolver X) (s s₀ : PCodeState O) : Prop :=
  ∀ o ∈ operands, o.isRegister = true → ∀ key, genVariableName o = some key →
    c.varList key = none → s.getOperandU8 o = s₀.getOperandU8 o

/-- What is listed stays listed. -/
def Lists (c c' : ConstraintSolver X) : Prop :=
  ∀ key, c'.varList key = none → c.varList key = none

section Lists

variable {c c' c'' : ConstraintSolver X} {s s₀ : PCodeState O} {operands : List Operand}

theorem Lists.trans (h : Lists c c') (h' : Lists c' c'') : Lists c c'' :=
  fun key hnone => h key (h' key hnone)

theorem lists_setVar (c : ConstraintSolver X) (key : String) (v : Variables X) :
    Lists c (c.setVar key v) := by
  intro key' hnone
  exact (varList_setVar_eq_none.mp hnone).2

theorem varListInsert_lists {operand : Operand} {expr : Option X.Expr} {e : X.Expr}
    (hins : c.varListInsert operand expr = .ok (e, c')) : Lists c c' := by
  obtain ⟨key, v, -, -, rfl⟩ := varListInsert_cases hins
  exact lists_setVar c key v

/-- An insertion lists its operand. -/
theorem insertResult_lists {result : Operand} {e : X.Expr}
    (hins : c.insertResult result e = .ok c') :
    Lists c c' ∧ ∀ key, genVariableName result = some key → c'.varList key ≠ none := by
  have hins' := insertResult_cases hins
  refine ⟨varListInsert_lists hins', ?_⟩
  obtain ⟨key, v, hkey, -, rfl⟩ := varListInsert_cases hins'
  intro key' hkey' hnone
  rw [hkey] at hkey'
  exact (varList_setVar_eq_none.mp hnone).1 (Option.some.inj hkey').symm

theorem read_lists {operand : Operand} {e : X.Expr}
    (hread : c.symexprFromOperandRead s operand = .ok (e, c')) : Lists c c' := by
  rcases read_cases hread with ⟨-, -, -, -, rfl⟩ | ⟨key, -, ⟨-, -, -, rfl⟩ | ⟨-, -, hins⟩⟩
  · exact fun _ hnone => hnone
  · exact fun _ hnone => hnone
  · exact varListInsert_lists hins

theorem Untouched.mono (h : Untouched operands c s s₀) (hlists : Lists c c') :
    Untouched operands c' s s₀ :=
  fun o ho hreg key hkey hnone => h o ho hreg key hkey (hlists key hnone)

theorem Untouched.setPc (h : Untouched operands c s s₀) (pc : Address) :
    Untouched operands c (s.setPc pc) s₀ := by
  intro o ho hreg key hkey hnone
  rw [PCodeState.getOperandU8_setPc]
  exact h o ho hreg key hkey hnone

/-- A write to an operand that is listed afterwards. -/
theorem Untouched.setValue {r : Operand} {e : X.Expr} (hk : Keyed operands) (hr : r ∈ operands)
    (h : Untouched operands c s s₀) (hins : c.insertResult r e = .ok c') (x : Nat) :
    Untouched operands c' (s.setValue r x) s₀ := by
  obtain ⟨hlists, hlisted⟩ := insertResult_lists hins
  intro o ho hreg key hkey hnone
  have hne : genVariableName r ≠ genVariableName o := by
    intro heq
    exact hlisted key (heq.trans hkey) hnone
  rw [PCodeState.getOperandU8_setValue_of_noOverlap (hk.apart r hr o ho hne)]
  exact h.mono hlists o ho hreg key hkey hnone

/-! ## One operation -/

/-- A read gives the same in the first state. -/
theorem read_start {o : Operand} (ho : o ∈ operands) (h : Untouched operands c s s₀) :
    c.symexprFromOperandRead s o = c.symexprFromOperandRead s₀ o := by
  cases o with
  | constant value size => rfl
  | address value size => rfl
  | «variable» space offset size => rfl
  | register name offset size =>
    unfold symexprFromOperandRead varListGet
    dsimp only [genVariableName]
    cases hnone : c.varList name with
    | some v => rfl
    | none =>
      dsimp only
      rw [h _ ho rfl name rfl hnone]

theorem readAll_start {os : List Operand} {es : List X.Expr} (hos : ∀ o ∈ os, o ∈ operands)
    (h : Untouched operands c s s₀) (hread : c.readAll s os = .ok (es, c')) :
    c.readAll s₀ os = .ok (es, c') ∧ Lists c c' := by
  induction os generalizing c es with
  | nil =>
    cases hread
    exact ⟨rfl, fun _ hnone => hnone⟩
  | cons o os ih =>
    obtain ⟨⟨e, c₁⟩, hread₁, hrest⟩ := exists_of_bind_eq_ok hread
    obtain ⟨⟨es', c₂⟩, hread₂, hrest⟩ := exists_of_bind_eq_ok hrest
    cases hrest
    have hlists := read_lists hread₁
    rw [read_start (hos o List.mem_cons_self) h] at hread₁
    obtain ⟨hread₂, hlists'⟩ :=
      ih (fun o' ho' => hos o' (List.mem_cons_of_mem _ ho')) (h.mono hlists) hread₂
    exact ⟨readAll_cons hread₁ hread₂, hlists.trans hlists'⟩

/-- Adding an operation in the first state is the same, and executing it touches what is
listed. -/
theorem addPcode_start {hidden written : List Operand} {op : PCodeOp} (hk : Keyed operands)
    (hop : Admissible operands hidden written op) (h : Untouched operands c s s₀)
    (hadd : c.addPcode op s = .ok c') :
    c.addPcode op s₀ = .ok c' ∧ Untouched operands c' (op.exec s) s₀ := by
  cases hout : op.output with
  | none =>
    rw [eq_skip hop.straight hout] at hadd ⊢
    cases hadd
    exact ⟨rfl, h⟩
  | some r =>
    rw [addPcode_straightLine hop.straight hout] at hadd
    obtain ⟨⟨es, c₁⟩, hread, hins⟩ := exists_of_bind_eq_ok hadd
    obtain ⟨hread₀, hlists⟩ := readAll_start (fun o ho => (hop.reads o ho).1) h hread
    constructor
    · rw [addPcode_straightLine hop.straight hout, hread₀]
      exact hins
    · have hset := (h.mono hlists).setValue hk (hop.writes r hout).1 hins
      unfold exec
      rw [execWith_straightLine hop.straight, hout]
      exact hset _

/-- The same for a load from the same address. -/
theorem addPcode_load_start {source destination : Operand} (hk : Keyed operands)
    (hd : destination ∈ operands) (haddr : s.getAddress source = s₀.getAddress source)
    (h : Untouched operands c s s₀) (hadd : c.addPcode (.load source destination) s = .ok c') :
    c.addPcode (.load source destination) s₀ = .ok c' ∧
      Untouched operands c' (exec s (.load source destination)) s₀ := by
  refine ⟨?_, ?_⟩
  · unfold addPcode at hadd ⊢
    dsimp only at hadd ⊢
    rw [← haddr]
    exact hadd
  · obtain ⟨⟨e, c₁⟩, hins, hrest⟩ := exists_of_bind_eq_ok hadd
    dsimp only at hrest
    split at hrest
    next => cases hrest
    next key _ =>
      let c₂ := { c₁ with varToSolve := c₁.varToSolve.insert key (e, s.getAddress source) }
      have hlists : Lists c c₂ := fun key hnone => varListInsert_lists hins key hnone
      have h₂ : Untouched operands c₂ s s₀ := h.mono hlists
      exact h₂.setValue hk hd hrest _

end Lists

/-! ## The body of a loop -/

/-- Add operations, reading every register in the same state. -/
def ConstraintSolver.addPcodes (c : ConstraintSolver X) (s : PCodeState O) :
    List PCodeOp → Except Panic (ConstraintSolver X)
  | [] => .ok c
  | op :: ops =>
    match c.addPcode op s with
    | .ok c => c.addPcodes s ops
    | .error p => .error p

/-- In a tracked session the solver is the one that reads the registers in the first
state. -/
theorem emulate_start {env : SolverEnv X} {h h' : DummyPeripheral X} {s s' s₀ : PCodeState O}
    {operands hidden written : List Operand} {l : List (Address × PCodeOp)} {c : Operand}
    (hk : Keyed operands) (hops : StraightLine operands hidden written (l.map Prod.snd) c)
    (ht : h.tracking = true) (hun : Untouched operands h.solver s s₀)
    (hemu : emulate env l (h, s) = .ok (h', s')) :
    h.solver.addPcodes s₀ (l.map Prod.snd) = .ok h'.solver ∧
      Untouched operands h'.solver s' s₀ := by
  induction l generalizing h s written with
  | nil =>
    cases hemu
    exact ⟨rfl, hun⟩
  | cons x l ih =>
    obtain ⟨pc, op⟩ := x
    obtain ⟨hop, hrest⟩ := hops
    unfold emulate at hemu
    split at hemu
    next h₁ s₁ hstep =>
      obtain ⟨h₂, solver, harm, hadd, rfl⟩ := DummyPeripheral.hookOperationStep_cases hstep
      rw [onOperation_straightLine env hop.straight] at harm
      cases harm
      rcases hadd with ⟨hnot, -⟩ | ⟨-, hadd⟩
      · exact absurd (ht.symm.trans hnot) (by decide)
      · obtain ⟨hadd₀, hun'⟩ := addPcode_start hk hop (hun.setPc pc) hadd
        obtain ⟨hadds, hun''⟩ :=
          ih (h := { h with solver := solver, pcodeCounter := h.pcodeCounter + 1 }) hrest ht hun'
            hemu
        refine ⟨?_, hun''⟩
        rw [List.map_cons, addPcodes, hadd₀]
        exact hadds
    next => cases hemu

/-! ## The whole loop -/

namespace PollingLoop

variable {env : SolverEnv X} {h h₁ : DummyPeripheral X} {s s₀ s₁ : PCodeState O}
  {l : PollingLoop}

/-- The states hold the same pointer, and the same first byte in every register. -/
structure SameInputs (l : PollingLoop) (s s₀ : PCodeState O) : Prop where
  pointer : s.getAddress l.pointer = s₀.getAddress l.pointer
  registers : ∀ r ∈ l.registers, s.getOperandU8 r = s₀.getOperandU8 r

/-- What the solver returns for the loaded location, as a function of the state that the
loop starts in. -/
def answer (env : SolverEnv X) (l : PollingLoop) (s : PCodeState O) : Option Nat :=
  match ConstraintSolver.new.addPcodes s (l.load :: l.ops) with
  | .error _ => none
  | .ok c => c.solution env s l.condition 0 (s.getAddress l.pointer)

/-- The solver at the closing branch. -/
theorem emulate_solver (hl : l.WellFormed) (hsame : l.SameInputs s s₀)
    (hin : InRange h.addressRangeList (s.getAddress l.pointer))
    (hmiss : h.cached (s.getAddress l.pointer) = none) (hcalls : 0 ≤ h.forgiveFunCall)
    (hdefaults : ∀ key, h.solverDefaultVars key = none)
    (hemu : emulate env l.upToBranch (h, s) = .ok (h₁, s₁)) :
    ConstraintSolver.new.addPcodes s₀ (l.load :: l.ops) = .ok h₁.solver ∧
      Untouched l.operands h₁.solver s₁ s₀ := by
  have haddr : (s.setPc l.loadPc).getAddress l.pointer = s.getAddress l.pointer :=
    PCodeState.value_setPc s l.loadPc l.pointer
  unfold upToBranch emulate at hemu
  split at hemu
  next h₂ s₂ hstep =>
    obtain ⟨h₃, solver, harm, hadd, rfl⟩ := DummyPeripheral.hookOperationStep_cases hstep
    rw [onOperation_load env (by rw [haddr]; exact hin) (by rw [haddr]; exact hmiss)] at harm
    cases harm
    rcases hadd with ⟨hnot, -⟩ | ⟨-, hadd⟩
    · exact absurd (hnot.symm.trans (decide_eq_true hcalls)) (by decide)
    · have hnew : ConstraintSolver.new.setDefaultVariables h.solverDefaultVars =
          (ConstraintSolver.new : ConstraintSolver X) := by
        rw [funext hdefaults]
        rfl
      have hadd' : ConstraintSolver.new.addPcode l.load (s.setPc l.loadPc) = .ok solver := by
        rw [← hnew]
        exact hadd
      have hun : Untouched l.operands (ConstraintSolver.new : ConstraintSolver X)
          (s.setPc l.loadPc) s₀ := by
        intro o ho hreg key hkey hnone
        rw [PCodeState.getOperandU8_setPc]
        exact hsame.registers o (List.mem_filter.mpr ⟨ho, hreg⟩)
      obtain ⟨hadd₀, hun'⟩ := addPcode_load_start hl.keyed l.destination_mem
        (haddr.trans hsame.pointer) hun hadd'
      obtain ⟨hadds, hun''⟩ :=
        emulate_start hl.keyed hl.straight (by exact decide_eq_true hcalls) hun' hemu
      refine ⟨?_, hun''⟩
      rw [addPcodes, show l.load = .load l.pointer l.destination from rfl, hadd₀]
      exact hadds
  next => cases hemu

/-- The solver's answer at the closing branch depends on the inputs of the loop only. -/
theorem solved_eq_answer (env : SolverEnv X) (hl : l.WellFormed) (hsame : l.SameInputs s s₀)
    (hsolver : ConstraintSolver.new.addPcodes s₀ (l.load :: l.ops) = .ok h₁.solver)
    (hun : Untouched l.operands h₁.solver s₁ s₀) (hstarted : h₁.solvingStarted = true)
    (hjump : h₁.forgiveJump = 0) (hpc : h₁.lastMemReadEvent.pc = l.loadPc) :
    h₁.solved env (s₁.setPc l.branchPc) l.branch (s.getAddress l.pointer) = l.answer env s₀ := by
  have hcall : h₁.solveCall (s₁.setPc l.branchPc) l.branch = some ⟨h₁.solver, l.condition, 0⟩ := by
    show (h₁.checkLoop _ (.address l.target l.targetSize) l.condition).2 = _
    rw [checkLoop_back hl hstarted hjump hpc]
  have hsolve : h₁.solver.solve env (s₁.setPc l.branchPc) l.condition 0 =
      h₁.solver.solve env s₀ l.condition 0 := by
    unfold solve
    rw [read_start l.condition_mem (hun.setPc l.branchPc)]
  rw [hsame.pointer]
  simp only [DummyPeripheral.solved, answer, hcall, hsolver, solution, hsolve]

end PollingLoop

end FuguexPeripheral
