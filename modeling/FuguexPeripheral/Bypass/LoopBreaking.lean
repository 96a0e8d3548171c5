import FuguexPeripheral.Bypass.PollingLoop
import FuguexPeripheral.Bypass.Term

/-!
# The bypass breaks polling loops

The value that the solver returns ends the loop as the solver reads it. It ends the
real loop where the two readings agree on it, and they need not: the solver cuts every
register down to its first byte.

Results:
1. `pass_session`: one pass through a loop whose load misses the cache.
2. `breaks_iff`: every solution of every sound solver breaks the loop if and only if
   every value that ends the loop in the solver's reading ends it in fact.
3. `register_truncated`: a loop that waits for a value above a byte is not broken.
-/

namespace FuguexPeripheral

open ByteStore PCodeOp Variables

namespace PollingLoop

variable {X : SymExprApi} {O : Order} {env : SolverEnv X} {h : DummyPeripheral X}
  {s t : PCodeState O} {l : PollingLoop}

/-- A state in which the loop may be executed again: the registers and the pointer are the
same, and the memory is the one given. -/
structure Again (l : PollingLoop) (s : PCodeState O) (m : Store) (t : PCodeState O) : Prop where
  registers : t.spaces .register = s.spaces .register
  pointer : t.value l.pointer = s.value l.pointer
  memory : t.memory = m

/-- One pass through the loop under the hooks does not panic; and if the solver returns a
value for the loaded location at the closing branch, then the loop, executed again
with the memory that the hook has left, falls through. -/
def Breaks (env : SolverEnv X) (l : PollingLoop) (h : DummyPeripheral X) (s : PCodeState O) :
    Prop :=
  ∃ h₁ s₁ h' s', emulate env l.upToBranch (h, s) = .ok (h₁, s₁) ∧
    h₁.hookOperationStep env (s₁.setPc l.branchPc) l.branch = .ok (h', s') ∧
    ∀ v, h₁.solved env (s₁.setPc l.branchPc) l.branch (s.getAddress l.pointer) = some v →
      ∀ t, l.Again s s'.memory t → l.conditionValue t = 0

theorem again_withMemory (hl : l.WellFormed) (s : PCodeState O) (m : Store) :
    l.Again s m (s.withMemory m) :=
  ⟨PCodeState.spaces_withMemory_of_ne s m (by decide),
    PCodeState.value_withMemory_of_not_inRam hl.pointer.2, PCodeState.memory_withMemory s m⟩

/-! ## What a loop computes -/

/-- The registers that the loop may read before it writes them. -/
def inputs (l : PollingLoop) : List Operand :=
  l.registers.filter fun r => decide (r ∉ l.hidden ∧ r ≠ l.destination)

/-- The condition depends on the loaded value and these registers. -/
theorem exitValue_congr {meaning : BinOp → Nat → Nat → Nat → Nat} (hl : l.WellFormed)
    (hregs : ∀ r ∈ l.inputs, s.value r = t.value r) (x : Nat) :
    l.exitValue meaning s x = l.exitValue meaning t x := by
  refine value_run_congr hl.keyed.toApart hl.straight ?_
  intro o ho hread
  have hap := hl.keyed.toApart
  rw [value_setValue hap l.destination_mem ho hl.destination,
    value_setValue hap l.destination_mem ho hl.destination]
  by_cases heq : l.destination = o
  · rw [if_pos heq, if_pos heq]
  · rw [if_neg heq, if_neg heq]
    rcases hread.2 with hconst | hreg | hmem
    · exact PCodeState.value_constant s t hconst
    · exact hregs o (List.mem_filter.mpr ⟨List.mem_filter.mpr ⟨ho, hreg⟩,
        decide_eq_true ⟨hread.1, Ne.symm heq⟩⟩)
    · exact absurd (List.mem_singleton.mp hmem).symm heq

theorem mem_inputs {r : Operand} (hr : r ∈ l.inputs) : r ∈ l.operands ∧ r.isRegister = true :=
  List.mem_filter.mp (List.mem_filter.mp hr).1

/-- The loaded value counts at the size of the load. -/
theorem exitValue_mod (meaning : BinOp → Nat → Nat → Nat → Nat) (l : PollingLoop)
    (s : PCodeState O) (x : Nat) :
    l.exitValue meaning s (x % 2 ^ (8 * l.destination.size)) = l.exitValue meaning s x := by
  unfold exitValue
  rw [PCodeState.setValue_mod]

theorem exitValue_eq_of_mod {meaning : BinOp → Nat → Nat → Nat → Nat} {x y : Nat}
    (hmod : x % 2 ^ (8 * l.destination.size) = y % 2 ^ (8 * l.destination.size)) :
    l.exitValue meaning s x = l.exitValue meaning s y := by
  rw [← exitValue_mod meaning l s x, hmod, exitValue_mod]

theorem value_register_congr {o : Operand} (hspaces : t.spaces .register = s.spaces .register)
    (hreg : o.isRegister = true) : t.value o = s.value o := by
  cases o with
  | register name offset size =>
    rw [PCodeState.value, PCodeState.value, PCodeState.operandBytes, PCodeState.operandBytes,
      hspaces]
  | constant | address | «variable» => cases hreg

/-- Executed again, the loop sees what is in memory. -/
theorem conditionValue_eq {m : Store} (hl : l.WellFormed) (hagain : l.Again s m t) :
    l.conditionValue t = l.exitValue BinOp.eval s
      (m.load O (s.getAddress l.pointer) l.destination.size) := by
  have hcond : l.conditionValue t = l.exitValue BinOp.eval t
      (t.readMemory (t.getAddress l.pointer) l.destination.size) := rfl
  rw [hcond, PCodeState.getAddress, hagain.pointer, PCodeState.readMemory, hagain.memory]
  exact exitValue_congr hl
    (fun r hr => value_register_congr hagain.registers (mem_inputs hr).2) _

/-- The solver has the first byte of a register. -/
theorem value_input {r : Operand} (hl : l.WellFormed) (hr : r ∈ l.inputs) :
    (s.capture l.registers).value r = (s.getOperandU8 r).toNat :=
  value_capture hl.keyed.toApart hl.registerSizes (mem_inputs hr).1 (mem_inputs hr).2 s

/-- The operation whose constructor means something else. -/
def isBoolOr : PCodeOp → Bool
  | .binary .boolOr _ _ _ => true
  | _ => false

theorem runWith_symMeaning {ops : List PCodeOp}
    (hor : ∀ op ∈ ops, isBoolOr op = false) (s : PCodeState O) :
    runWith BinOp.symMeaning ops s = runWith BinOp.eval ops s := by
  induction ops generalizing s with
  | nil => rfl
  | cons op ops ih =>
    have hstep : op.execWith BinOp.symMeaning s = op.execWith BinOp.eval s := by
      cases op with
      | binary bop r a b =>
        have hne : bop ≠ .boolOr := by
          rintro rfl
          cases hor _ List.mem_cons_self
        rw [execWith, execWith, BinOp.symMeaning_eq_eval hne]
      | load | store | copy | branch | cbranch | ibranch | call | icall | ret | subpiece | unary
      | skip | other => rfl
    have htail := ih (fun op' hop' => hor op' (List.mem_cons_of_mem _ hop'))
      (op.execWith BinOp.eval s)
    unfold runWith at htail ⊢
    rw [List.foldl_cons, List.foldl_cons, hstep]
    exact htail

theorem solverExits_setPc (hl : l.WellFormed) (s : PCodeState O) (pc : Address) (x : Nat) :
    l.SolverExits (s.setPc pc) x ↔ l.SolverExits s x := by
  unfold SolverExits
  rw [exitValue_congr (t := s.capture l.registers) hl]
  intro r hr
  rw [value_input hl hr, value_input hl hr, PCodeState.getOperandU8_setPc]

/-- Where the two readings agree: the registers that the loop reads hold bytes, and it has
no Boolean disjunction. -/
theorem solverExits_iff_exits (hl : l.WellFormed)
    (hbytes : ∀ r ∈ l.inputs, s.value r = (s.getOperandU8 r).toNat)
    (hor : ∀ op ∈ l.ops, isBoolOr op = false) (x : Nat) :
    l.SolverExits s x ↔ l.Exits s x := by
  unfold SolverExits Exits
  have hcapture : l.exitValue BinOp.symMeaning (s.capture l.registers) x =
      l.exitValue BinOp.symMeaning s x :=
    exitValue_congr hl (fun r hr => (value_input hl hr).trans (hbytes r hr).symm) x
  rw [hcapture, exitValue, runWith_symMeaning hor]
  rfl

/-! ## One pass through the loop -/

/-- In a fresh session the body leaves the solver with one target and an expression for the
condition. -/
theorem emulate_session (env : SolverEnv X) (hl : l.WellFormed)
    (hin : InRange h.addressRangeList (s.getAddress l.pointer))
    (hmiss : h.cached (s.getAddress l.pointer) = none) (hcalls : 0 ≤ h.forgiveFunCall)
    (hdefaults : ∀ key, h.solverDefaultVars key = none) :
    ∃ solver n s₁ written key,
      emulate env l.upToBranch (h, s) = .ok
        ({ h.startSession (s.setPc l.loadPc) (s.getAddress l.pointer) l.destination.size with
            solver := solver, pcodeCounter := n }, s₁) ∧
      solver.varToSolve.entries = [⟨key, (X.ivar l.ivar, s.getAddress l.pointer)⟩] ∧
      Simulates l.operands l.hidden written solver s₁
        (fun σ => runWith BinOp.symMeaning l.ops (l.view (s.setPc l.loadPc) σ)) ∧
      l.condition ∈ l.operands ∧ Readable l.hidden written l.condition := by
  have haddr : (s.setPc l.loadPc).getAddress l.pointer = s.getAddress l.pointer :=
    PCodeState.value_setPc s l.loadPc l.pointer
  obtain ⟨c, key, n, hload, hvars, hsim⟩ := opens env (s := s.setPc l.loadPc) hl
    (by rw [haddr]; exact hin) (by rw [haddr]; exact hmiss) hcalls hdefaults
  rw [haddr] at hload hvars
  let h₀ : DummyPeripheral X :=
    { h.startSession (s.setPc l.loadPc) (s.getAddress l.pointer) l.destination.size with
      solver := c, pcodeCounter := n }
  obtain ⟨solver, m, s₁, written, hemu, hvars', hsim', hc, hread⟩ := emulate_tracked env
    (h := h₀) hl.keyed hl.registerSizes hl.straight (decide_eq_true hcalls) hsim
  refine ⟨solver, m, s₁, written, key, ?_, hvars' ▸ hvars, hsim', hc, hread⟩
  rw [upToBranch, emulate_cons hload]
  exact hemu

/-- One pass through a loop whose load misses the cache: the hook on the closing branch
gets the answer of the solver to a constraint that says that the loop ends, and writes it. -/
theorem pass_session (env : SolverEnv X) (hl : l.WellFormed)
    (hin : InRange h.addressRangeList (s.getAddress l.pointer))
    (hmiss : h.cached (s.getAddress l.pointer) = none) (hcalls : 0 ≤ h.forgiveFunCall)
    (hdefaults : ∀ key, h.solverDefaultVars key = none) :
    ∃ h₁ s₁ constraint answer solver n,
      emulate env l.upToBranch (h, s) = .ok (h₁, s₁) ∧
      (∀ σ, X.Satisfies σ [constraint] ↔ l.SolverExits s (σ l.ivar)) ∧
      answer = (env.solve env.newIndependent (X.ivar l.ivar) [constraint]).1.bind toU64 ∧
      h₁.solved env (s₁.setPc l.branchPc) l.branch (s.getAddress l.pointer) = answer ∧
      h₁ = { h.startSession (s.setPc l.loadPc) (s.getAddress l.pointer) l.destination.size with
              solver := h₁.solver, pcodeCounter := h₁.pcodeCounter } ∧
      h₁.hookOperationStep env (s₁.setPc l.branchPc) l.branch = .ok
        ({ (DummyPeripheral.writeSolution ({ h₁.stop with solver := solver },
            s₁.setPc l.branchPc) (s.getAddress l.pointer, answer)).1 with pcodeCounter := n },
          (DummyPeripheral.writeSolution ({ h₁.stop with solver := solver },
            s₁.setPc l.branchPc) (s.getAddress l.pointer, answer)).2) := by
  obtain ⟨c, m, s₁, written, key, hemu, hentries, hsim, hc, hread⟩ :=
    emulate_session env hl hin hmiss hcalls hdefaults
  obtain ⟨constraint, solver, n, answer, hsat, hanswer, hsolved, hstep⟩ :=
    closes env
      (h := { h.startSession (s.setPc l.loadPc) (s.getAddress l.pointer) l.destination.size with
                solver := c, pcodeCounter := m })
      hl rfl rfl rfl hentries (hsim.setPc l.branchPc) hc hread
  refine ⟨_, s₁, constraint, answer, solver, n, hemu, ?_, hanswer, hsolved, rfl, hstep⟩
  intro σ
  rw [hsat, ← solverExits_setPc hl s l.loadPc]
  rfl

section Answer

variable {constraint : X.Expr} {answer : Option Nat}

/-- An answer ends the loop in the solver's reading. -/
theorem answer_some (hl : l.WellFormed)
    (hsat : ∀ σ, X.Satisfies σ [constraint] ↔ l.SolverExits s (σ l.ivar))
    (hanswer : answer = (env.solve env.newIndependent (X.ivar l.ivar) [constraint]).1.bind toU64)
    {v : Nat} (hv : answer = some v) : l.SolverExits s v := by
  rw [hanswer] at hv
  obtain ⟨w, hw, hfit⟩ := Option.bind_eq_some_iff.mp hv
  have hvw : v = w := by
    unfold toU64 at hfit
    split at hfit
    · exact (Option.some.inj hfit).symm
    · cases hfit
  obtain ⟨σ, hσ, heval⟩ := env.solve_some hw
  have hexits := (hsat σ).mp hσ
  unfold SolverExits at hexits ⊢
  rw [X.eval_ivar] at heval
  rw [hvw, ← heval, exitValue_eq_of_mod (y := σ l.ivar)]
  · exact hexits
  · exact Nat.mod_mod_of_dvd _ (pow_dvd_pow 2 (Nat.mul_le_mul_left 8 hl.size_le))

/-- The solver that prefers a model in which the loop ends answers with it. -/
theorem answer_preferring {σ : Model} (hl : l.WellFormed)
    (hsat : ∀ σ, X.Satisfies σ [constraint] ↔ l.SolverExits s (σ l.ivar))
    (hx : l.SolverExits s (σ l.ivar)) (hlt : σ l.ivar < 2 ^ (8 * l.destination.size)) :
    ((SolverEnv.preferring X σ).solve (SolverEnv.preferring X σ).newIndependent
      (X.ivar l.ivar) [constraint]).1.bind toU64 = some (σ l.ivar) := by
  have hptr : σ l.ivar < 2 ^ (8 * l.pointer.size) :=
    lt_of_lt_of_le hlt (Nat.pow_le_pow_right (by decide) (Nat.mul_le_mul_left 8 hl.size_le))
  have hbits : 8 * l.destination.size ≤ 64 := by
    rcases hl.size with hn | hn | hn | hn <;> rw [hn] <;> decide
  have hsolve := SolverEnv.preferring_solve () (X.ivar l.ivar) ((hsat σ).mpr hx)
  rw [X.eval_ivar] at hsolve
  refine (congrArg (·.bind toU64) hsolve).trans ?_
  show toU64 (σ l.ivar % 2 ^ (8 * l.pointer.size)) = _
  rw [Nat.mod_eq_of_lt hptr]
  exact if_pos (lt_of_lt_of_le hlt (Nat.pow_le_pow_right (by decide) hbits))

end Answer

/-- What the hook writes is read back by the load. -/
theorem readMemory_writeSolution {g : DummyPeripheral X} {a v : Nat}
    (hsize : g.lastMemReadEvent.size = l.destination.size) (hl : l.WellFormed) :
    (DummyPeripheral.writeSolution (g, s) (a, some v)).2.readMemory a l.destination.size =
      v % 2 ^ (8 * l.destination.size) := by
  unfold DummyPeripheral.writeSolution
  dsimp only
  rw [apply_ite Prod.snd, ite_self, hsize, if_pos hl.size]
  exact PCodeState.readMemory_write s a l.destination.size v

/-- With the memory that the hook has left, the loop computes its condition from the
solution. -/
theorem conditionValue_writeSolution {g : DummyPeripheral X} {u : PCodeState O} {v : Nat}
    (hl : l.WellFormed) (hsize : g.lastMemReadEvent.size = l.destination.size)
    (hagain : l.Again s
      (DummyPeripheral.writeSolution (g, u) (s.getAddress l.pointer, some v)).2.memory t) :
    l.conditionValue t = l.exitValue BinOp.eval s v := by
  rw [conditionValue_eq hl hagain, ← exitValue_mod BinOp.eval l s v]
  exact congrArg _ (readMemory_writeSolution hsize hl)

/-- After a pass whose solver answers `v`, the loop computes its condition from `v`. -/
theorem pass_value (env : SolverEnv X) (hl : l.WellFormed)
    (hin : InRange h.addressRangeList (s.getAddress l.pointer))
    (hmiss : h.cached (s.getAddress l.pointer) = none) (hcalls : 0 ≤ h.forgiveFunCall)
    (hdefaults : ∀ key, h.solverDefaultVars key = none) :
    ∃ h₁ s₁ h' s' constraint,
      emulate env l.upToBranch (h, s) = .ok (h₁, s₁) ∧
      h₁.hookOperationStep env (s₁.setPc l.branchPc) l.branch = .ok (h', s') ∧
      (∀ σ, X.Satisfies σ [constraint] ↔ l.SolverExits s (σ l.ivar)) ∧
      h₁.solved env (s₁.setPc l.branchPc) l.branch (s.getAddress l.pointer) =
        (env.solve env.newIndependent (X.ivar l.ivar) [constraint]).1.bind toU64 ∧
      ∀ v, h₁.solved env (s₁.setPc l.branchPc) l.branch (s.getAddress l.pointer) = some v →
        ∀ t, l.Again s s'.memory t → l.conditionValue t = l.exitValue BinOp.eval s v := by
  obtain ⟨h₁, s₁, constraint, answer, solver, n, hemu, hsat, hanswer, hsolved, hh₁, hstep⟩ :=
    pass_session env hl hin hmiss hcalls hdefaults
  refine ⟨h₁, s₁, _, _, constraint, hemu, hstep, hsat, hsolved.trans hanswer, ?_⟩
  intro v hv t hagain
  rw [hsolved] at hv
  subst hv
  have hsize : h₁.stop.lastMemReadEvent.size = l.destination.size := by
    rw [hh₁]
    rfl
  exact conditionValue_writeSolution hl (g := { h₁.stop with solver := solver }) hsize hagain

/-! ## Breaking the loop -/

/-- The solver may answer with any value that ends the loop in its reading. -/
theorem pass_preferring {x : Nat} (hl : l.WellFormed)
    (hin : InRange h.addressRangeList (s.getAddress l.pointer))
    (hmiss : h.cached (s.getAddress l.pointer) = none) (hcalls : 0 ≤ h.forgiveFunCall)
    (hdefaults : ∀ key, h.solverDefaultVars key = none)
    (hlt : x < 2 ^ (8 * l.destination.size)) (hx : l.SolverExits s x) :
    ∃ h₁ s₁ h' s',
      emulate (SolverEnv.preferring X fun _ => x) l.upToBranch (h, s) = .ok (h₁, s₁) ∧
      h₁.hookOperationStep (SolverEnv.preferring X fun _ => x) (s₁.setPc l.branchPc) l.branch =
        .ok (h', s') ∧
      h₁.solved (SolverEnv.preferring X fun _ => x) (s₁.setPc l.branchPc) l.branch
        (s.getAddress l.pointer) = some x ∧
      ∀ t, l.Again s s'.memory t → l.conditionValue t = l.exitValue BinOp.eval s x := by
  obtain ⟨h₁, s₁, h', s', constraint, hemu, hstep, hsat, hanswer, hvalue⟩ :=
    pass_value (SolverEnv.preferring X fun _ => x) hl hin hmiss hcalls hdefaults
  have hsolved := hanswer.trans (answer_preferring hl hsat hx hlt)
  exact ⟨h₁, s₁, h', s', hemu, hstep, hsolved, hvalue x hsolved⟩

/-- With no cache, no default registers and no call or return to forgive, every solution of
every sound solver breaks the loop, if and only if every value that ends the loop in
the solver's reading ends it in fact. -/
theorem breaks_iff (hl : l.WellFormed) (hcache : h.solvingResultsCacheEnable = false)
    (hcalls : h.forgiveFunCall = 0) (hdefaults : ∀ key, h.solverDefaultVars key = none)
    (hin : InRange h.addressRangeList (s.getAddress l.pointer)) :
    (∀ env : SolverEnv X, l.Breaks env h s) ↔
      ∀ x < 2 ^ (8 * l.destination.size), l.SolverExits s x → l.Exits s x := by
  have hmiss : h.cached (s.getAddress l.pointer) = none :=
    DummyPeripheral.cached_of_disabled hcache _
  have hcalls' : 0 ≤ h.forgiveFunCall := by rw [hcalls]; decide
  constructor
  · intro hbreaks x hlt hx
    obtain ⟨h₁, s₁, h', s', hemu, hstep, hfalls⟩ := hbreaks (SolverEnv.preferring X fun _ => x)
    obtain ⟨h₂, s₂, h'', s'', hemu', hstep', hsolved, hvalue⟩ :=
      pass_preferring hl hin hmiss hcalls' hdefaults hlt hx
    rw [hemu'] at hemu
    cases hemu
    rw [hstep'] at hstep
    cases hstep
    have hagain := again_withMemory hl s s'.memory
    exact (hvalue _ hagain).symm.trans (hfalls x hsolved _ hagain)
  · intro hexact env
    obtain ⟨h₁, s₁, h', s', constraint, hemu, hstep, hsat, hanswer, hvalue⟩ :=
      pass_value env hl hin hmiss hcalls' hdefaults
    refine ⟨h₁, s₁, h', s', hemu, hstep, ?_⟩
    intro v hv t hagain
    have hexits : l.SolverExits s v := answer_some hl hsat hanswer hv
    rw [hvalue v hv t hagain, ← exitValue_mod]
    refine hexact _ (Nat.mod_lt _ (Nat.two_pow_pos _)) ?_
    unfold SolverExits at hexits ⊢
    rw [exitValue_mod]
    exact hexits

/-! ## Waiting for a value -/

/-- `while (*r0 != r2)`, with 4-byte registers. -/
def waitLoop : PollingLoop :=
  { loadPc := 0x1000
    pointer := .register "r0" 0 4
    destination := .register "r1" 4 4
    body := [(0x1002, .binary .intNotEq (.register "z" 12 1) (.register "r1" 4 4)
      (.register "r2" 8 4))]
    branchPc := 0x1004
    target := 0x1000
    targetSize := 4
    condition := .register "z" 12 1 }

theorem waitLoop_wellFormed : waitLoop.WellFormed := by
  decide

/-- `r0` is 16, and `r2` the value to wait for. -/
def waitState (r2 : Nat) : PCodeState .le :=
  (PCodeState.setValue { spaces := fun _ _ => 0, programCounter := 0x1000 }
    (.register "r0" 0 4) 16).setValue (.register "r2" 8 4) r2

/-- A peripheral at the addresses from 0 to 255. -/
def poller : DummyPeripheral X :=
  DummyPeripheral.new.addAddressRange (0, 0xff)

theorem poller_inRange (r2 : Nat) :
    InRange (poller : DummyPeripheral X).addressRangeList
      ((waitState r2).getAddress waitLoop.pointer) := by
  have hptr : (waitState r2).getAddress waitLoop.pointer = 16 :=
    (PCodeState.value_setValue_of_noOverlap (by decide)).trans
      (PCodeState.value_setValue_same rfl)
  rw [hptr]
  exact ⟨(0, 0xff), List.mem_singleton.mpr rfl, by decide⟩

/-- A value that fits a byte is found. -/
theorem breaks_iff_byte :
    waitLoop.WellFormed ∧
      ∀ env : SolverEnv termApi, waitLoop.Breaks env poller (waitState 0x5a) := by
  refine ⟨waitLoop_wellFormed, ?_⟩
  refine (breaks_iff waitLoop_wellFormed rfl rfl (fun _ => rfl) (poller_inRange 0x5a)).mpr ?_
  intro x _ hx
  exact (solverExits_iff_exits waitLoop_wellFormed (by decide +kernel) (by decide) x).mp hx

/-- A value above a byte is not: when `r2` is 0x100, a sound solver answers 0, and the loop
goes on with the 0 that the hook has written. -/
theorem register_truncated :
    waitLoop.WellFormed ∧ ∃ env : SolverEnv termApi, ∃ h₁ s₁ h' s',
      emulate env waitLoop.upToBranch (poller, waitState 0x100) = .ok (h₁, s₁) ∧
      h₁.hookOperationStep env (s₁.setPc waitLoop.branchPc) waitLoop.branch = .ok (h', s') ∧
      h₁.solved env (s₁.setPc waitLoop.branchPc) waitLoop.branch
        ((waitState 0x100).getAddress waitLoop.pointer) = some 0 ∧
      waitLoop.conditionValue ((waitState 0x100).withMemory s'.memory) = 1 := by
  obtain ⟨h₁, s₁, h', s', hemu, hstep, hsolved, hvalue⟩ :=
    pass_preferring (X := termApi) (x := 0) waitLoop_wellFormed (poller_inRange 0x100) rfl
      (by decide) (fun _ => rfl) (by decide) (by decide +kernel)
  refine ⟨waitLoop_wellFormed, _, h₁, s₁, h', s', hemu, hstep, hsolved, ?_⟩
  rw [hvalue _ (again_withMemory waitLoop_wellFormed _ _)]
  decide +kernel

end PollingLoop

end FuguexPeripheral
