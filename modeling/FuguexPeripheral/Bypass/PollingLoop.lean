import FuguexPeripheral.Bypass.Simulation

/-!
# Polling loops

A polling loop loads a status value through a pointer, computes a condition from it in
straight-line code, and branches back while the condition holds. This module runs such
a loop under the hooks, once through.

Results:
1. `emulate_tracked`, `emulate_untracked`, `emulate_value`, `emulate_state`: the body of the
   loop.
2. `opens`: a load that misses the cache opens a session, whose solver simulates the loop
   for every value of the location.
3. `closes`: the closing branch solves, and writes what the solver answers.
-/

namespace FuguexPeripheral

open ByteStore PCodeOp Variables

variable {X : SymExprApi} {O : Order}

/-- A polling loop, with the program counters of its operations. -/
structure PollingLoop where
  loadPc : Address
  pointer : Operand
  destination : Operand
  body : List (Address × PCodeOp)
  branchPc : Address
  target : Address
  targetSize : Nat
  condition : Operand

/-- The emulator: every operation is hooked, and then executed, at its program counter. -/
def emulate (env : SolverEnv X) : List (Address × PCodeOp) →
    DummyPeripheral X × PCodeState O → Except Panic (DummyPeripheral X × PCodeState O)
  | [], hs => .ok hs
  | (pc, op) :: rest, hs =>
    match hs.1.hookOperationStep env (hs.2.setPc pc) op with
    | .ok (h, s) => emulate env rest (h, op.exec s)
    | .error p => .error p

/-- The state in which the registers are cut down to what the solver captures. -/
def PCodeState.capture (s : PCodeState O) (registers : List Operand) : PCodeState O :=
  registers.foldl (fun t r => t.setValue r (s.getOperandU8 r).toNat) s

namespace PollingLoop

def load (l : PollingLoop) : PCodeOp :=
  .load l.pointer l.destination

def branch (l : PollingLoop) : PCodeOp :=
  .cbranch (.address l.target l.targetSize) l.condition

def ops (l : PollingLoop) : List PCodeOp :=
  l.body.map Prod.snd

/-- The loop up to its closing branch. -/
def upToBranch (l : PollingLoop) : List (Address × PCodeOp) :=
  (l.loadPc, l.load) :: l.body

def operands (l : PollingLoop) : List Operand :=
  l.pointer :: l.destination :: l.condition ::
    l.ops.flatMap fun op => op.output.toList ++ op.reads

def registers (l : PollingLoop) : List Operand :=
  l.operands.filter Operand.isRegister

/-- The pointer is not read again, unless it is the destination of the load. -/
def hidden (l : PollingLoop) : List Operand :=
  if l.pointer = l.destination then [] else [l.pointer]

/-- The loops that the bypass is meant for. -/
structure WellFormed (l : PollingLoop) : Prop where
  keyed : Keyed l.operands
  registerSizes : RegisterSizes l.operands
  pointer : l.pointer.isConstant = false ∧ l.pointer.inRam = false
  destination : l.destination.isConstant = false
  size : l.destination.size = 1 ∨ l.destination.size = 2 ∨ l.destination.size = 4 ∨
    l.destination.size = 8
  size_le : l.destination.size ≤ l.pointer.size
  straight : StraightLine l.operands l.hidden [l.destination] l.ops l.condition
  back : l.target ≤ l.loadPc

instance (l : PollingLoop) : Decidable l.WellFormed :=
  decidable_of_iff
    (Keyed l.operands ∧ RegisterSizes l.operands ∧
      (l.pointer.isConstant = false ∧ l.pointer.inRam = false) ∧
      l.destination.isConstant = false ∧
      (l.destination.size = 1 ∨ l.destination.size = 2 ∨ l.destination.size = 4 ∨
        l.destination.size = 8) ∧
      l.destination.size ≤ l.pointer.size ∧
      StraightLine l.operands l.hidden [l.destination] l.ops l.condition ∧
      l.target ≤ l.loadPc)
    ⟨fun ⟨h₁, h₂, h₃, h₄, h₅, h₆, h₇, h₈⟩ => ⟨h₁, h₂, h₃, h₄, h₅, h₆, h₇, h₈⟩,
      fun ⟨h₁, h₂, h₃, h₄, h₅, h₆, h₇, h₈⟩ => ⟨h₁, h₂, h₃, h₄, h₅, h₆, h₇, h₈⟩⟩

/-- The condition at the closing branch, when the load yields `x`. -/
def exitValue (meaning : BinOp → Nat → Nat → Nat → Nat) (l : PollingLoop) (s : PCodeState O)
    (x : Nat) : Nat :=
  (runWith meaning l.ops (s.setValue l.destination x)).value l.condition

/-- The loop ends when the load yields `x`. -/
def Exits (l : PollingLoop) (s : PCodeState O) (x : Nat) : Prop :=
  l.exitValue BinOp.eval s x = 0

/-- The solver expects the loop to end when the load yields `x`: the same with every
register cut down to its first byte, and with the meaning that the solver gives to
the operations. -/
def SolverExits (l : PollingLoop) (s : PCodeState O) (x : Nat) : Prop :=
  l.exitValue BinOp.symMeaning (s.capture l.registers) x = 0

instance (l : PollingLoop) (s : PCodeState O) (x : Nat) : Decidable (l.Exits s x) :=
  inferInstanceAs (Decidable (_ = 0))

instance (l : PollingLoop) (s : PCodeState O) (x : Nat) : Decidable (l.SolverExits s x) :=
  inferInstanceAs (Decidable (_ = 0))

/-- The condition at the closing branch, when the loop is executed from `s`. -/
def conditionValue (l : PollingLoop) (s : PCodeState O) : Nat :=
  (runWith BinOp.eval (l.load :: l.ops) s).value l.condition

/-- The symbolic variable for the loaded location. -/
def ivar (l : PollingLoop) : IVar :=
  ⟨(genVariableName l.pointer).getD "", 8 * l.pointer.size⟩

/-- The states that the solver follows, one for each model. -/
def view (l : PollingLoop) (s : PCodeState O) (σ : Model) : PCodeState O :=
  (s.capture l.registers).setValue l.destination (σ l.ivar)

end PollingLoop

/-! ## Running straight-line code under the hooks -/

section Emulate

variable {env : SolverEnv X} {h : DummyPeripheral X} {s : PCodeState O}
  {operands hidden written : List Operand}

theorem emulate_cons {pc : Address} {op : PCodeOp} {rest : List (Address × PCodeOp)}
    {h' : DummyPeripheral X} {s' : PCodeState O}
    (hstep : h.hookOperationStep env (s.setPc pc) op = .ok (h', s')) :
    emulate env ((pc, op) :: rest) (h, s) = emulate env rest (h', op.exec s') := by
  rw [emulate, hstep]

/-- The hook leaves straight-line operations to the solver. -/
theorem onOperation_straightLine (env : SolverEnv X) {op : PCodeOp}
    (hop : op.isStraightLine = true) :
    h.onOperation env s op = .ok (h, s) := by
  cases op with
  | copy | binary | unary | skip => rfl
  | load | store | branch | cbranch | ibranch | call | icall | ret | subpiece | other => cases hop

/-- In a tracked session the solver follows the whole body. -/
theorem emulate_tracked (env : SolverEnv X) {l : List (Address × PCodeOp)} {c : Operand}
    {view : Model → PCodeState O} (hk : Keyed operands) (hsizes : RegisterSizes operands)
    (hops : StraightLine operands hidden written (l.map Prod.snd) c) (ht : h.tracking = true)
    (hsim : Simulates operands hidden written h.solver s view) :
    ∃ solver n s' written',
      emulate env l (h, s) = .ok ({ h with solver := solver, pcodeCounter := n }, s') ∧
      solver.varToSolve = h.solver.varToSolve ∧
      Simulates operands hidden written' solver s'
        (fun σ => runWith BinOp.symMeaning (l.map Prod.snd) (view σ)) ∧
      c ∈ operands ∧ Readable hidden written' c := by
  induction l generalizing h s written view with
  | nil => exact ⟨h.solver, h.pcodeCounter, s, written, rfl, rfl, hsim, hops.1, hops.2⟩
  | cons x l ih =>
    obtain ⟨pc, op⟩ := x
    obtain ⟨hop, hrest⟩ := hops
    obtain ⟨solver, hadd, hsim'⟩ := (hsim.setPc pc).step hk hsizes hop
    have hstep : h.hookOperationStep env (s.setPc pc) op =
        .ok ({ h with solver := solver, pcodeCounter := h.pcodeCounter + 1 }, s.setPc pc) :=
      DummyPeripheral.hookOperationStep_tracked (onOperation_straightLine env hop.straight) ht hadd
    have hvars : solver.varToSolve = h.solver.varToSolve := by
      rcases ConstraintSolver.addPcode_varToSolve hadd with
        ⟨-, heq⟩ | ⟨source, destination, key, e, hload, -⟩
      · exact heq
      · have hstraight := hop.straight
        rw [show op = .load source destination from hload] at hstraight
        cases hstraight
    obtain ⟨solver', n, s', written', hemu, hvars', hsim'', hc⟩ :=
      ih (h := { h with solver := solver, pcodeCounter := h.pcodeCounter + 1 }) hrest ht hsim'
    refine ⟨solver', n, s', written', ?_, hvars'.trans hvars, hsim'', hc⟩
    rw [emulate_cons hstep]
    exact hemu

/-- Without a session the peripheral stands by. -/
theorem emulate_untracked (env : SolverEnv X) {l : List (Address × PCodeOp)}
    (hops : ∀ op ∈ l.map Prod.snd, op.isStraightLine = true) (ht : h.tracking = false) :
    ∃ n s', emulate env l (h, s) = .ok ({ h with pcodeCounter := n }, s') := by
  induction l generalizing h s with
  | nil => exact ⟨h.pcodeCounter, s, rfl⟩
  | cons x l ih =>
    obtain ⟨pc, op⟩ := x
    have hstep : h.hookOperationStep env (s.setPc pc) op =
        .ok ({ h with pcodeCounter := h.pcodeCounter + 1 }, s.setPc pc) :=
      DummyPeripheral.hookOperationStep_untracked
        (onOperation_straightLine env (hops op List.mem_cons_self)) ht
    obtain ⟨n, s', hemu⟩ := ih (h := { h with pcodeCounter := h.pcodeCounter + 1 })
      (s := op.exec (s.setPc pc)) (fun op' hop' => hops op' (List.mem_cons_of_mem _ hop')) ht
    refine ⟨n, s', ?_⟩
    rw [emulate_cons hstep]
    exact hemu

/-- The hooks do not change what straight-line code computes. -/
theorem emulate_value {l : List (Address × PCodeOp)} {c : Operand} {h' : DummyPeripheral X}
    {s' t : PCodeState O} (hap : Apart operands)
    (hops : StraightLine operands hidden written (l.map Prod.snd) c)
    (hemu : emulate env l (h, s) = .ok (h', s')) (hagree : AgreeOn operands hidden written s t) :
    s'.value c = (runWith BinOp.eval (l.map Prod.snd) t).value c := by
  induction l generalizing h s t written with
  | nil =>
    cases hemu
    exact hagree c hops.1 hops.2
  | cons x l ih =>
    obtain ⟨pc, op⟩ := x
    obtain ⟨hop, hrest⟩ := hops
    unfold emulate at hemu
    split at hemu
    next h₁ s₁ hstep =>
      obtain ⟨h₂, solver, harm, -, -⟩ := DummyPeripheral.hookOperationStep_cases hstep
      rw [onOperation_straightLine env hop.straight] at harm
      cases harm
      have hagree' : AgreeOn operands hidden written (s.setPc pc) t := by
        intro o ho hread
        rw [PCodeState.value_setPc]
        exact hagree o ho hread
      exact ih hrest hemu (agreeOn_step hap hop hagree')
    next => cases hemu

/-- Nor do they change what it does to the state, whichever peripheral they belong to. -/
theorem emulate_state {l : List (Address × PCodeOp)} {h₁ h₂ h₁' h₂' : DummyPeripheral X}
    {s₁ s₂ : PCodeState O} (hops : ∀ op ∈ l.map Prod.snd, op.isStraightLine = true)
    (hemu₁ : emulate env l (h₁, s) = .ok (h₁', s₁))
    (hemu₂ : emulate env l (h₂, s) = .ok (h₂', s₂)) : s₁ = s₂ := by
  induction l generalizing h₁ h₂ s with
  | nil =>
    cases hemu₁
    cases hemu₂
    rfl
  | cons x l ih =>
    obtain ⟨pc, op⟩ := x
    have hop := hops op List.mem_cons_self
    unfold emulate at hemu₁ hemu₂
    split at hemu₁
    next g₁ t₁ hstep₁ =>
      split at hemu₂
      next g₂ t₂ hstep₂ =>
        obtain ⟨k₁, solver₁, harm₁, -, -⟩ := DummyPeripheral.hookOperationStep_cases hstep₁
        obtain ⟨k₂, solver₂, harm₂, -, -⟩ := DummyPeripheral.hookOperationStep_cases hstep₂
        rw [onOperation_straightLine env hop] at harm₁ harm₂
        cases harm₁
        cases harm₂
        exact ih (fun op' hop' => hops op' (List.mem_cons_of_mem _ hop')) hemu₁ hemu₂
      next => cases hemu₂
    next => cases hemu₁

theorem straightLine_all {ops : List PCodeOp} {c : Operand}
    (hops : StraightLine operands hidden written ops c) :
    ∀ op ∈ ops, op.isStraightLine = true := by
  induction ops generalizing written with
  | nil => exact List.forall_mem_nil _
  | cons op ops ih =>
    intro op' hop'
    rcases List.mem_cons.mp hop' with rfl | hmem
    · exact hops.1.straight
    · exact ih hops.2 op' hmem

end Emulate

/-! ## Capturing the registers -/

/-- In operands that are apart, writing some of them changes these. -/
theorem value_foldl_setValue {operands registers : List Operand} {f : Operand → Nat}
    {o : Operand} (hap : Apart operands) (hmem : ∀ r ∈ registers, r ∈ operands)
    (hconst : ∀ r ∈ registers, r.isConstant = false) (ho : o ∈ operands) (t : PCodeState O) :
    (registers.foldl (fun t r => t.setValue r (f r)) t).value o =
      if o ∈ registers then f o % 2 ^ (8 * o.size) else t.value o := by
  induction registers generalizing t with
  | nil => rfl
  | cons r registers ih =>
    rw [List.foldl_cons, ih (fun r' hr' => hmem r' (List.mem_cons_of_mem _ hr'))
      (fun r' hr' => hconst r' (List.mem_cons_of_mem _ hr')),
      value_setValue hap (hmem r List.mem_cons_self) ho (hconst r List.mem_cons_self)]
    by_cases hin : o ∈ registers
    · rw [if_pos hin, if_pos (List.mem_cons_of_mem _ hin)]
    · rw [if_neg hin]
      by_cases heq : r = o
      · rw [if_pos heq, if_pos (heq ▸ List.mem_cons_self), heq]
      · have hnot : o ∉ r :: registers := fun hmem' =>
          (List.mem_cons.mp hmem').elim (fun heq' => heq heq'.symm) hin
        rw [if_neg heq, if_neg hnot]

/-- A register holds its first byte in the captured state. -/
theorem value_capture {operands : List Operand} {o : Operand} (hap : Apart operands)
    (hsizes : RegisterSizes operands) (ho : o ∈ operands) (hreg : o.isRegister = true)
    (s : PCodeState O) :
    (s.capture (operands.filter Operand.isRegister)).value o = (s.getOperandU8 o).toNat := by
  unfold PCodeState.capture
  rw [value_foldl_setValue (f := fun r => (s.getOperandU8 r).toNat) hap
    (fun r hr => (List.mem_filter.mp hr).1)
    (fun r hr => Operand.isConstant_of_isRegister (List.mem_filter.mp hr).2) ho,
    if_pos (List.mem_filter.mpr ⟨ho, hreg⟩)]
  exact Simulates.byte_mod (hsizes o ho hreg) _

/-! ## The load opens the session -/

namespace PollingLoop

variable {env : SolverEnv X} {h : DummyPeripheral X} {s : PCodeState O} {l : PollingLoop}

theorem pointer_mem (l : PollingLoop) : l.pointer ∈ l.operands :=
  List.mem_cons_self

theorem destination_mem (l : PollingLoop) : l.destination ∈ l.operands :=
  List.mem_cons_of_mem _ List.mem_cons_self

theorem condition_mem (l : PollingLoop) : l.condition ∈ l.operands :=
  List.mem_cons_of_mem _ (List.mem_cons_of_mem _ List.mem_cons_self)

/-- The operands are readable at the start as the view has them: the pointer is listed
with its symbolic variable, the registers are still to be captured. -/
theorem simulates_pointer {c : ConstraintSolver X} {v : Variables X} {key : String}
    (hl : l.WellFormed) (hkey : genVariableName l.pointer = some key)
    (hdefaults : ∀ key, c.defaultVariables key = none) (hlist : ∀ key, c.varList key = none) :
    Simulates l.operands [l.pointer] [] (c.setVar key v) s fun _ => s.capture l.registers := by
  refine ⟨hdefaults, ?_, ?_, List.forall_mem_nil _⟩
  · intro o ho hhid key' hkey' w hw
    by_cases hsame : key' = key
    · have heq : o = l.pointer :=
        hl.keyed.one o ho _ l.pointer_mem (isConstant_of_key hkey')
          (by rw [hkey, hkey', hsame])
      exact absurd (heq ▸ List.mem_cons_self) hhid
    · rw [ConstraintSolver.varList_setVar_of_ne hsame, hlist] at hw
      cases hw
  · intro o ho hreg key' hkey' hnone σ
    exact value_capture hl.keyed.toApart hl.registerSizes ho hreg s

/-- The load of a fresh session lists its target, and the solver is ready to follow the
loop for every value of the location. -/
theorem addPcode_load {c : ConstraintSolver X} (hl : l.WellFormed)
    (hdefaults : ∀ key, c.defaultVariables key = none) (hlist : ∀ key, c.varList key = none)
    (hnone : c.varToSolve = ∅) :
    ∃ c' key, c.addPcode l.load s = .ok c' ∧
      c'.varToSolve.entries = [⟨key, (X.ivar l.ivar, s.getAddress l.pointer)⟩] ∧
      Simulates l.operands l.hidden [l.destination] c' (l.load.exec s) (l.view s) := by
  obtain ⟨key, hkey⟩ := genVariableName_isSome hl.pointer.1
  have hivar : (⟨key, 8 * l.pointer.size⟩ : IVar) = l.ivar := by
    unfold ivar
    rw [hkey]
    rfl
  have hptr : c.varListInsert l.pointer none =
      .ok (X.ivar l.ivar, c.setVar key (Variables.new key (X.ivar l.ivar))) := by
    unfold ConstraintSolver.varListInsert
    rw [hkey]
    dsimp only
    rw [hlist, ← hivar]
    rfl
  -- after the target is marked
  let c₁ : ConstraintSolver X :=
    { c.setVar key (Variables.new key (X.ivar l.ivar)) with
      varToSolve := c.varToSolve.insert key (X.ivar l.ivar, s.getAddress l.pointer) }
  have hsim₁ : Simulates l.operands [l.pointer] [] c₁ s fun _ => s.capture l.registers := by
    obtain ⟨hdef, hcur, hcap, hlisted⟩ := simulates_pointer (s := s)
      (v := Variables.new key (X.ivar l.ivar)) hl hkey hdefaults hlist
    exact ⟨hdef, hcur, hcap, hlisted⟩
  have hle : 8 * l.destination.size ≤ X.bits (X.ivar l.ivar) := by
    rw [X.bits_ivar]
    exact Nat.mul_le_mul_left 8 hl.size_le
  have heval : ∀ σ, X.eval σ (X.extractLow (X.ivar l.ivar) (8 * l.destination.size)) =
      σ l.ivar % 2 ^ (8 * l.destination.size) := by
    intro σ
    rw [X.eval_extractLow hle, X.eval_ivar]
    exact Nat.mod_mod_of_dvd _ (pow_dvd_pow 2 (Nat.mul_le_mul_left 8 hl.size_le))
  have hhidden : ∀ o ∈ [l.pointer], o = l.destination ∨ o ∈ l.hidden := by
    intro o ho
    rw [List.mem_singleton.mp ho]
    unfold hidden
    by_cases heq : l.pointer = l.destination
    · exact .inl heq
    · rw [if_neg heq]
      exact .inr List.mem_cons_self
  obtain ⟨c₂, hins, hsim₂⟩ := hsim₁.write hl.keyed l.destination_mem hl.destination hhidden
    (X.bits_extractLow hle) heval (s.readMemory (s.getAddress l.pointer) l.destination.size)
  refine ⟨c₂, key, ?_, ?_, hsim₂⟩
  · unfold ConstraintSolver.addPcode load
    dsimp only
    rw [hptr]
    dsimp only [bind, Except.bind]
    rw [hkey]
    exact hins
  · rw [ConstraintSolver.insertResult_varToSolve hins]
    show (c.varToSolve.insert key _).entries = _
    rw [hnone, AList.entries_insert]
    rfl

/-- A load that misses the cache opens a session. -/
theorem onOperation_load (env : SolverEnv X)
    (hin : InRange h.addressRangeList (s.getAddress l.pointer))
    (hmiss : h.cached (s.getAddress l.pointer) = none) :
    h.onOperation env s l.load =
      .ok (h.startSession s (s.getAddress l.pointer) l.destination.size, s) :=
  DummyPeripheral.onLoad_miss hin hmiss

/-- The hook on a load that misses the cache: a new session, tracked from its load on. -/
theorem opens (env : SolverEnv X) (hl : l.WellFormed)
    (hin : InRange h.addressRangeList (s.getAddress l.pointer))
    (hmiss : h.cached (s.getAddress l.pointer) = none) (hcalls : 0 ≤ h.forgiveFunCall)
    (hdefaults : ∀ key, h.solverDefaultVars key = none) :
    ∃ c key n, h.hookOperationStep env s l.load =
        .ok ({ h.startSession s (s.getAddress l.pointer) l.destination.size with
                solver := c, pcodeCounter := n }, s) ∧
      c.varToSolve.entries = [⟨key, (X.ivar l.ivar, s.getAddress l.pointer)⟩] ∧
      Simulates l.operands l.hidden [l.destination] c (l.load.exec s) (l.view s) := by
  obtain ⟨c, key, hadd, hvars, hsim⟩ := addPcode_load (s := s)
    (c := ConstraintSolver.new.setDefaultVariables h.solverDefaultVars) hl hdefaults
    (fun _ => rfl) rfl
  exact ⟨c, key, _, DummyPeripheral.hookOperationStep_tracked (onOperation_load env hin hmiss)
    (decide_eq_true hcalls) hadd, hvars, hsim⟩

/-! ## The branch closes it -/

/-- With one target, `solve` asks for its value in a model where the operand is 0. -/
theorem solve_single (env : SolverEnv X) {c : ConstraintSolver X}
    {operands hidden written : List Operand}
    {view : Model → PCodeState O} {o : Operand} {key : String} {e : X.Expr} {a : Address}
    (hk : Keyed operands) (hsizes : RegisterSizes operands) (ho : o ∈ operands)
    (hread : Readable hidden written o) (hsim : Simulates operands hidden written c s view)
    (hentries : c.varToSolve.entries = [⟨key, (e, a)⟩]) :
    ∃ constraint c', (∀ σ, X.Satisfies σ [constraint] ↔ (view σ).value o = 0) ∧
      c.solve env s o 0 = .ok (some (AList.insert a
        ((env.solve env.newIndependent e [constraint]).1.bind toU64) ∅), c') := by
  obtain ⟨opSym, c', hopSym, -, heval, -⟩ := hsim.read hk hsizes ho hread
  refine ⟨X.binary .eq opSym (X.val 0 (X.bits opSym)), c', ?_, ?_⟩
  · intro σ
    rw [X.satisfies_eq_iff, Nat.zero_mod, heval]
  · have horder : env.varOrder (c'.varToSolve.entries.map Sigma.snd) = [(e, a)] := by
      rw [ConstraintSolver.read_varToSolve hopSym, hentries]
      exact List.perm_singleton.mp (env.varOrder_perm _)
    unfold ConstraintSolver.solve
    rw [hopSym]
    show Except.ok _ = _
    rw [horder]
    rfl

/-- The closing branch goes back, and expects a 0. -/
theorem checkLoop_back (hl : l.WellFormed) (hstarted : h.solvingStarted = true)
    (hjump : h.forgiveJump = 0) (hpc : h.lastMemReadEvent.pc = l.loadPc) :
    h.checkLoop s (.address l.target l.targetSize) l.condition =
      (h.stop, some ⟨h.solver, l.condition, 0⟩) := by
  have hexp : h.expectedValue = 0 := if_pos hjump
  have hle : (Operand.address l.target l.targetSize).branchOffset ≤ h.lastMemReadEvent.pc := by
    rw [hpc]
    exact hl.back
  rw [DummyPeripheral.checkLoop_closes hstarted hle, hexp]

/-- What the closing branch solves for, where the solver returns one answer. -/
theorem solved_branch (env : SolverEnv X) {solver : ConstraintSolver X} {a : Address}
    {answer : Option Nat}
    (hcheck : h.checkLoop s (.address l.target l.targetSize) l.condition =
      (h.stop, some ⟨h.solver, l.condition, 0⟩))
    (hsolve : h.solver.solve env s l.condition 0 = .ok (some (AList.insert a answer ∅), solver)) :
    h.solved env s l.branch a = answer := by
  have hcall : h.solveCall s l.branch = some ⟨h.solver, l.condition, 0⟩ := by
    show (h.checkLoop s _ l.condition).2 = _
    rw [hcheck]
  unfold DummyPeripheral.solved
  rw [hcall]
  dsimp only
  unfold ConstraintSolver.solution
  rw [hsolve]
  dsimp only
  rw [AList.lookup_insert]
  rfl

/-- The closing branch writes that answer. -/
theorem onOperation_branch (env : SolverEnv X) {solver : ConstraintSolver X} {a : Address}
    {answer : Option Nat}
    (hcheck : h.checkLoop s (.address l.target l.targetSize) l.condition =
      (h.stop, some ⟨h.solver, l.condition, 0⟩))
    (hsolve : h.solver.solve env s l.condition 0 = .ok (some (AList.insert a answer ∅), solver)) :
    h.onOperation env s l.branch =
      .ok (DummyPeripheral.writeSolution ({ h.stop with solver := solver }, s) (a, answer)) := by
  show h.onCBranch env s (.address l.target l.targetSize) l.condition = _
  unfold DummyPeripheral.onCBranch
  rw [hcheck]
  dsimp only
  rw [hsolve]
  have horder : env.resultOrder ((AList.insert a answer
      (∅ : AList fun _ : Address => Option Nat)).entries.map fun e => (e.1, e.2)) =
      [(a, answer)] :=
    List.perm_singleton.mp (env.resultOrder_perm _)
  dsimp only
  rw [horder]
  rfl

/-- The hook on the closing branch solves for the loaded location, and writes the answer
there if there is one. -/
theorem closes (env : SolverEnv X) {written : List Operand} {view : Model → PCodeState O}
    {key : String}
    {a : Address} (hl : l.WellFormed) (hstarted : h.solvingStarted = true)
    (hjump : h.forgiveJump = 0) (hpc : h.lastMemReadEvent.pc = l.loadPc)
    (hentries : h.solver.varToSolve.entries = [⟨key, (X.ivar l.ivar, a)⟩])
    (hsim : Simulates l.operands l.hidden written h.solver s view)
    (hc : l.condition ∈ l.operands) (hread : Readable l.hidden written l.condition) :
    ∃ constraint solver n answer,
      (∀ σ, X.Satisfies σ [constraint] ↔ (view σ).value l.condition = 0) ∧
      answer = (env.solve env.newIndependent (X.ivar l.ivar) [constraint]).1.bind toU64 ∧
      h.solved env s l.branch a = answer ∧
      h.hookOperationStep env s l.branch =
        .ok ({ (DummyPeripheral.writeSolution ({ h.stop with solver := solver }, s)
                  (a, answer)).1 with pcodeCounter := n },
          (DummyPeripheral.writeSolution ({ h.stop with solver := solver }, s) (a, answer)).2) := by
  obtain ⟨constraint, solver, hsat, hsolve⟩ :=
    solve_single env hl.keyed hl.registerSizes hc hread hsim hentries
  have hcheck := checkLoop_back (s := s) hl hstarted hjump hpc
  generalize hanswer : (env.solve env.newIndependent (X.ivar l.ivar) [constraint]).1.bind toU64 =
    answer at hsolve
  have ht : (DummyPeripheral.writeSolution ({ h.stop with solver := solver }, s)
      (a, answer)).1.tracking = false := by
    obtain ⟨results, hresults⟩ := DummyPeripheral.writeSolutions_hook [(a, answer)]
      ({ h.stop with solver := solver }, s)
    rw [show (DummyPeripheral.writeSolution _ (a, answer)).1 = _ from hresults]
    rfl
  exact ⟨constraint, solver, _, answer, hsat, hanswer.symm, solved_branch env hcheck hsolve,
    DummyPeripheral.hookOperationStep_untracked (onOperation_branch env hcheck hsolve) ht⟩

end PollingLoop

end FuguexPeripheral
