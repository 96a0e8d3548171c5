import FuguexPeripheral.Bypass.Cache

/-!
# Polling loops that run

The emulator goes round a polling loop until its branch falls through, and nobody but the
loop and the hooks writes to memory. With the cache off, the second iteration leaves the
loop, for every value of the solver; unless no value of the location ends it, and then
no iteration does.

Results:
1. `iterate_miss`: one iteration whose load misses the cache, from the idle state to the idle
   state.
2. `iterate_of_run`: what every iteration but the first does.
-/

namespace FuguexPeripheral

open ByteStore PCodeOp Runs

variable {X : SymExprApi} {O : Order}

namespace PollingLoop

/-! ## Iterations -/

/-- One iteration under the hooks, and whether its branch goes back. -/
def iterate (env : SolverEnv X) (l : PollingLoop) (hs : DummyPeripheral X × PCodeState O) :
    Except Panic (Bool × DummyPeripheral X × PCodeState O) :=
  match emulate env l.upToBranch hs with
  | .error p => .error p
  | .ok (h, s) =>
    match h.hookOperationStep env (s.setPc l.branchPc) l.branch with
    | .error p => .error p
    | .ok (h, s) => .ok (decide (s.value l.condition ≠ 0), h, s)

/-- An iteration that goes back. -/
def GoesBack (env : SolverEnv X) (l : PollingLoop) (hs : DummyPeripheral X × PCodeState O)
    (_ : Unit) (hs' : DummyPeripheral X × PCodeState O) : Prop :=
  l.iterate env hs = .ok (true, hs')

/-- What an iteration takes from the one before, but for the polled location. -/
def live (l : PollingLoop) : List Operand :=
  liveOperands [l.destination] l.ops l.condition

/-- A loop from the load to the branch, whose iterations all compute the same from the
loaded value: it writes neither the pointer nor what it reads, and its condition is not in
RAM, where the solver's answer is written. The pointer has at most 8 bytes, so that the answer
fits. -/
structure Steady (l : PollingLoop) : Prop where
  back : l.target = l.loadPc
  pointer : l.pointer ≠ l.destination
  kept : ∀ o ∈ l.pointer :: l.live, ∀ op ∈ l.ops, op.output ≠ some o
  condition : l.condition.inRam = false
  narrow : l.pointer.size ≤ 8

instance (l : PollingLoop) : Decidable l.Steady :=
  decidable_of_iff
    (l.target = l.loadPc ∧ l.pointer ≠ l.destination ∧
      (∀ o ∈ l.pointer :: l.live, ∀ op ∈ l.ops, op.output ≠ some o) ∧
      l.condition.inRam = false ∧ l.pointer.size ≤ 8)
    ⟨fun ⟨h₁, h₂, h₃, h₄, h₅⟩ => ⟨h₁, h₂, h₃, h₄, h₅⟩,
      fun ⟨h₁, h₂, h₃, h₄, h₅⟩ => ⟨h₁, h₂, h₃, h₄, h₅⟩⟩

/-- The value at the polled location. -/
def polled (l : PollingLoop) (s : PCodeState O) : Nat :=
  s.readMemory (s.getAddress l.pointer) l.destination.size

/-- The two states start the same iteration, but for the polled location. -/
def SameStart (l : PollingLoop) (s₀ s : PCodeState O) : Prop :=
  ∀ o ∈ l.pointer :: l.live, s.operandBytes o = s₀.operandBytes o

/-- What the iterations of a loop hand on: after the first one, the location holds a value
that ends the loop if there is one. -/
structure Handed (l : PollingLoop) (ranges : List (Address × Address)) (s₀ : PCodeState O)
    (first : Prop) (hs : DummyPeripheral X × PCodeState O) : Prop where
  idle : Idle ranges false hs.1
  same : l.SameStart s₀ hs.2
  begins : first → hs.2 = s₀
  solved : ¬ first → (∃ x, l.Exits s₀ x) → l.Exits s₀ (l.polled hs.2)

namespace IterationLemmas

variable {env : SolverEnv X} {h : DummyPeripheral X} {s s₀ : PCodeState O} {l : PollingLoop}

theorem value_of_sameStart {o : Operand} (hsame : l.SameStart s₀ s) (ho : o ∈ l.pointer :: l.live) :
    s.value o = s₀.value o :=
  congrArg (decode O) (hsame o ho)

theorem live_mem {o : Operand} (hl : l.WellFormed) (ho : o ∈ l.live) :
    o ∈ l.operands ∧ o ≠ l.destination ∧ (o.isConstant = true ∨ o.isRegister = true) := by
  obtain ⟨hmem, -, hkind⟩ := mem_live hl.straight ho
  exact ⟨hmem, fun heq => not_mem_written_of_live ho (heq ▸ List.mem_cons_self), hkind⟩

theorem live_not_inRam {o : Operand} (hl : l.WellFormed) (ho : o ∈ l.pointer :: l.live) :
    o.inRam = false := by
  rcases List.mem_cons.mp ho with rfl | hlive
  · exact hl.pointer.2
  · rcases (live_mem hl hlive).2.2 with hconst | hreg
    · cases o with
      | constant => rfl
      | address | register | «variable» => cases hconst
    · exact CacheLemmas.isRegister_not_inRam hreg

/-! ## What the loop computes from the loaded value -/

/-- The condition depends on the loaded value and what is live. -/
theorem exitValue_live {meaning : BinOp → Nat → Nat → Nat → Nat} (hl : l.WellFormed)
    (hlive : ∀ o ∈ l.live, s.value o = s₀.value o) (x : Nat) :
    l.exitValue meaning s x = l.exitValue meaning s₀ x := by
  have hap := hl.keyed.toApart
  refine value_run_live hap hl.straight (fun o ho hmem => ?_) fun o ho => ?_
  · rw [List.mem_singleton.mp hmem, PCodeState.value_setValue_same hl.destination,
      PCodeState.value_setValue_same hl.destination]
  · obtain ⟨hmem, hne, -⟩ := live_mem hl ho
    rw [value_setValue hap l.destination_mem hmem hl.destination,
      value_setValue hap l.destination_mem hmem hl.destination, if_neg hne.symm, if_neg hne.symm]
    exact hlive o ho

theorem exits_iff (hl : l.WellFormed) (hsame : l.SameStart s₀ s) (x : Nat) :
    l.Exits s x ↔ l.Exits s₀ x := by
  unfold Exits
  rw [exitValue_live hl fun o ho => value_of_sameStart hsame (List.mem_cons_of_mem _ ho)]

/-- The solver reads every iteration as the first one is. -/
theorem solverExits_iff (hl : l.WellFormed) (hsame : l.SameStart s₀ s)
    (hbytes : ∀ o ∈ l.live, o.isRegister = true → s₀.value o = (s₀.getOperandU8 o).toNat)
    (hor : ∀ op ∈ l.ops, isBoolOr op = false) (x : Nat) :
    l.SolverExits s x ↔ l.Exits s₀ x := by
  have hcapture : ∀ o ∈ l.live, (s.capture l.registers).value o = s₀.value o := by
    intro o ho
    obtain ⟨hmem, -, hconst | hreg⟩ := live_mem hl ho
    · exact PCodeState.value_constant _ _ hconst
    · have hbyte : s.getOperandU8 o = s₀.getOperandU8 o :=
        congrArg (·.headD 0) (hsame o (List.mem_cons_of_mem _ ho))
      exact (value_capture hl.keyed.toApart hl.registerSizes hmem hreg s).trans
        ((congrArg UInt8.toNat hbyte).trans (hbytes o ho hreg).symm)
  have hvalue : l.exitValue BinOp.symMeaning (s.capture l.registers) x =
      l.exitValue BinOp.eval s₀ x := by
    rw [exitValue_live hl hcapture, exitValue, runWith_symMeaning hor]
    rfl
  unfold SolverExits Exits
  rw [hvalue]

/-! ## What an iteration keeps -/

theorem operandBytes_setPc (s : PCodeState O) (pc : Address) (o : Operand) :
    (s.setPc pc).operandBytes o = s.operandBytes o := by
  cases o <;> rfl

/-- The body keeps what it does not write. -/
theorem emulate_keeps {operands hidden written : List Operand} {c o : Operand}
    {body : List (Address × PCodeOp)} {h' : DummyPeripheral X} {s' : PCodeState O}
    (hap : Apart operands) (hops : StraightLine operands hidden written (body.map Prod.snd) c)
    (ho : o ∈ operands) (hkept : ∀ op ∈ body.map Prod.snd, op.output ≠ some o)
    (hemu : emulate env body (h, s) = .ok (h', s')) : s'.operandBytes o = s.operandBytes o := by
  induction body generalizing h s written with
  | nil =>
    cases hemu
    rfl
  | cons x body ih =>
    obtain ⟨pc, op⟩ := x
    obtain ⟨hop, hrest⟩ := hops
    unfold emulate at hemu
    split at hemu
    next h₁ s₁ hstep =>
      obtain ⟨h₂, solver, harm, -, -⟩ := DummyPeripheral.hookOperationStep_cases hstep
      rw [onOperation_straightLine env hop.straight] at harm
      cases harm
      have hexec : (op.exec (s.setPc pc)).operandBytes o = s.operandBytes o := by
        rw [exec, execWith_straightLine hop.straight]
        cases hout : op.output with
        | none => exact operandBytes_setPc s pc o
        | some r =>
          have hne : r ≠ o := fun heq => hkept op List.mem_cons_self (heq ▸ hout)
          exact (PCodeState.operandBytes_setValue_of_noOverlap
            (hap r (hop.writes r hout).1 o ho hne)).trans (operandBytes_setPc s pc o)
      exact (ih hrest (fun op' hop' => hkept op' (List.mem_cons_of_mem _ hop')) hemu).trans hexec
    next => cases hemu

/-- Up to its branch the loop keeps what the next iteration needs, if the hook on the load
does. -/
theorem upToBranch_keeps {h₁ h' : DummyPeripheral X} {s₁ s' : PCodeState O} (hl : l.WellFormed)
    (hst : l.Steady) (hload : h.hookOperationStep env (s.setPc l.loadPc) l.load = .ok (h₁, s₁))
    (hkept : l.SameStart s s₁) (hemu : emulate env l.upToBranch (h, s) = .ok (h', s')) :
    l.SameStart s s' := by
  intro o ho
  have hap := hl.keyed.toApart
  have hmem : o ∈ l.operands ∧ o ≠ l.destination := by
    rcases List.mem_cons.mp ho with rfl | hlive
    · exact ⟨l.pointer_mem, hst.pointer⟩
    · exact ⟨(live_mem hl hlive).1, (live_mem hl hlive).2.1⟩
  rw [upToBranch, emulate_cons hload] at hemu
  have hbody := emulate_keeps hap hl.straight hmem.1 (hst.kept o ho) hemu
  exact hbody.trans ((PCodeState.operandBytes_setValue_of_noOverlap
    (hap l.destination l.destination_mem o hmem.1 hmem.2.symm)).trans (hkept o ho))

theorem getAddress_setPc (l : PollingLoop) (s : PCodeState O) :
    (s.setPc l.loadPc).getAddress l.pointer = s.getAddress l.pointer :=
  PCodeState.value_setPc s l.loadPc l.pointer

/-- Where the hook leaves the load alone, the condition comes of what the location holds. -/
theorem condition_of_miss {h₁ h' : DummyPeripheral X} {s' : PCodeState O} (hl : l.WellFormed)
    (hload : h.hookOperationStep env (s.setPc l.loadPc) l.load = .ok (h₁, s.setPc l.loadPc))
    (hemu : emulate env l.upToBranch (h, s) = .ok (h', s')) :
    s'.value l.condition = l.exitValue BinOp.eval s (l.polled s) := by
  rw [upToBranch, emulate_cons hload] at hemu
  calc s'.value l.condition
    _ = l.exitValue BinOp.eval (s.setPc l.loadPc) (l.polled (s.setPc l.loadPc)) :=
      emulate_value hl.keyed.toApart hl.straight hemu fun _ _ _ => rfl
    _ = l.exitValue BinOp.eval s (l.polled (s.setPc l.loadPc)) :=
      exitValue_live hl (fun o _ => PCodeState.value_setPc s _ o) _
    _ = l.exitValue BinOp.eval s (l.polled s) :=
      congrArg (fun a => l.exitValue BinOp.eval s (s.readMemory a l.destination.size))
        (getAddress_setPc l s)

/-- The hook on the branch writes to RAM only. -/
theorem writeSolution_operandBytes {g : DummyPeripheral X} {o : Operand} (ho : o.inRam = false)
    (kv : Address × Option Nat) :
    (DummyPeripheral.writeSolution (g, s) kv).2.operandBytes o = s.operandBytes o := by
  unfold DummyPeripheral.writeSolution
  split
  · rfl
  · dsimp only
    rw [apply_ite Prod.snd, ite_self]
    split
    · exact PCodeState.operandBytes_congr_of_not_inRam ho fun _ =>
        PCodeState.spaces_setValues_of_ne _ _ _
    · rfl

/-- The peripheral is idle again when a session is closed. -/
theorem idle_closed {ranges : List (Address × Address)} {cache : Bool} {h₁ : DummyPeripheral X}
    {u : PCodeState O} {a : Address} {size : Nat} (hidle : Idle ranges cache h)
    (hh₁ : h₁ = { h.startSession s a size with
      solver := h₁.solver, pcodeCounter := h₁.pcodeCounter })
    (solver : ConstraintSolver X) (kv : Address × Option Nat) (n : Nat) :
    Idle ranges cache
      { (DummyPeripheral.writeSolution ({ h₁.stop with solver := solver }, u) kv).1 with
        pcodeCounter := n } := by
  obtain ⟨results, hhook⟩ :=
    DummyPeripheral.writeSolutions_hook [kv] ({ h₁.stop with solver := solver }, u)
  rw [show (DummyPeripheral.writeSolution _ kv).1 = _ from hhook, hh₁]
  exact ⟨hidle.ranges, hidle.cache, rfl, hidle.calls, hidle.noDefaults⟩

/-! ## One iteration -/

/-- Where the loop can end in the solver's reading, the solver has an answer. -/
theorem answer_isSome {constraint : X.Expr} {answer : Option Nat} (hst : l.Steady)
    (hsat : ∀ σ, X.Satisfies σ [constraint] ↔ l.SolverExits s (σ l.ivar))
    (hanswer : answer = (env.solve env.newIndependent (X.ivar l.ivar) [constraint]).1.bind toU64)
    (hx : ∃ x, l.SolverExits s x) : ∃ v, answer = some v := by
  obtain ⟨x, hx⟩ := hx
  cases hsolve : (env.solve env.newIndependent (X.ivar l.ivar) [constraint]).1 with
  | none => exact absurd ((hsat fun _ => x).mpr hx) (env.solve_none hsolve _)
  | some w =>
    obtain ⟨σ, -, heval⟩ := env.solve_some hsolve
    have hlt : w < 2 ^ 64 := by
      have hbits := X.eval_lt σ (X.ivar l.ivar)
      rw [heval, X.bits_ivar] at hbits
      exact hbits.trans_le (Nat.pow_le_pow_right (by decide) (Nat.mul_le_mul_left 8 hst.narrow))
    exact ⟨w, by rw [hanswer, hsolve]; exact toU64_eq_some.mpr ⟨rfl, hlt⟩⟩

/-- The solution is cached for the address of the load, where the cache is on. -/
theorem cached_writeSolution {g : DummyPeripheral X} {a : Address}
    (hcache : g.solvingResultsCacheEnable = true) (hevent : g.lastMemReadEvent.readAddress = a)
    (v : Nat) : ∃ r, (DummyPeripheral.writeSolution (g, s) (a, some v)).1.cached a = some r ∧
      r.value = v := by
  refine ⟨⟨a, v, g.lastMemReadEvent.size⟩, ?_, rfl⟩
  unfold DummyPeripheral.writeSolution
  dsimp only
  rw [if_pos hcache, DummyPeripheral.cached, DummyPeripheral.cacheResult]
  dsimp only
  rw [if_pos hcache, hevent, Function.update_self]

/-- An iteration whose load misses the cache goes back on what the location holds. If the loop
can end in the solver's reading, the location holds a value that ends it there after the
iteration, and so does the cache. -/
theorem iterate_miss (env : SolverEnv X) {ranges : List (Address × Address)} {cache : Bool}
    (hl : l.WellFormed) (hst : l.Steady) (hidle : Idle ranges cache h)
    (hin : InRange ranges (s.getAddress l.pointer))
    (hmiss : h.cached (s.getAddress l.pointer) = none) :
    ∃ goesOn h' s', l.iterate env (h, s) = .ok (goesOn, h', s') ∧
      (goesOn = false ↔ l.Exits s (l.polled s)) ∧ Idle ranges cache h' ∧ l.SameStart s s' ∧
      ((∃ x, l.SolverExits s x) → l.SolverExits s (l.polled s') ∧
        (cache = true → ∃ r, h'.cached (s.getAddress l.pointer) = some r ∧
          l.SolverExits s r.value)) := by
  have hcalls : 0 ≤ h.forgiveFunCall := by
    rw [hidle.calls]
    decide
  rw [← hidle.ranges] at hin
  have haddr := getAddress_setPc l s
  obtain ⟨c, key, m, hload, -, -⟩ := opens env (s := s.setPc l.loadPc) hl (by rwa [haddr])
    (by rwa [haddr]) hcalls hidle.noDefaults
  obtain ⟨h₁, s₁, constraint, answer, solver, n, hemu, hsat, hanswer, -, hh₁, hstep⟩ :=
    pass_session env hl hin hmiss hcalls hidle.noDefaults
  -- `w` is what the hook on the branch leaves: the answer is written, if there is one
  let w := DummyPeripheral.writeSolution ({ h₁.stop with solver := solver }, s₁.setPc l.branchPc)
    (s.getAddress l.pointer, answer)
  have hkeeps : ∀ o, o.inRam = false → w.2.operandBytes o = s₁.operandBytes o := fun o ho =>
    (writeSolution_operandBytes ho _).trans (operandBytes_setPc _ _ _)
  have hsame : l.SameStart s w.2 := fun o ho => (hkeeps o (live_not_inRam hl ho)).trans
    (upToBranch_keeps hl hst hload (fun o _ => operandBytes_setPc s _ o) hemu o ho)
  -- the hook runs before the branch is taken, but writes to RAM only
  have hcond : w.2.value l.condition = l.exitValue BinOp.eval s (l.polled s) :=
    (congrArg (decode O) (hkeeps _ hst.condition)).trans (condition_of_miss hl hload hemu)
  refine ⟨decide (w.2.value l.condition ≠ 0), { w.1 with pcodeCounter := n }, w.2, ?_, ?_,
    idle_closed hidle hh₁ solver _ n, hsame, fun hx => ?_⟩
  · unfold iterate
    rw [hemu]
    dsimp only
    rw [hstep]
  · rw [hcond]
    simp [Exits]
  · obtain ⟨v, hv⟩ := answer_isSome hst hsat hanswer hx
    have hexits := answer_some hl hsat hanswer hv
    have hevent : h₁.stop.lastMemReadEvent.readAddress = s.getAddress l.pointer ∧
        h₁.stop.lastMemReadEvent.size = l.destination.size := by
      rw [hh₁]
      exact ⟨rfl, rfl⟩
    have hread : l.polled w.2 = v % 2 ^ (8 * l.destination.size) := by
      have hptr : w.2.getAddress l.pointer = s.getAddress l.pointer :=
        value_of_sameStart hsame List.mem_cons_self
      rw [polled, hptr]
      show (DummyPeripheral.writeSolution _ (_, answer)).2.readMemory _ _ = _
      rw [hv]
      exact readMemory_writeSolution (g := { h₁.stop with solver := solver }) hevent.2 hl
    constructor
    · unfold SolverExits at hexits ⊢
      rwa [hread, exitValue_mod]
    · intro hcache
      have henabled : h₁.stop.solvingResultsCacheEnable = true := by
        rw [hh₁]
        exact hidle.cache.trans hcache
      obtain ⟨r, hr, rfl⟩ := cached_writeSolution (g := { h₁.stop with solver := solver })
        (s := s₁.setPc l.branchPc) henabled hevent.1 v
      rw [← hv] at hr
      exact ⟨r, hr, hexits⟩

theorem inRange_of_sameStart {ranges : List (Address × Address)} (hsame : l.SameStart s₀ s)
    (hin : InRange ranges (s₀.getAddress l.pointer)) : InRange ranges (s.getAddress l.pointer) := by
  rwa [show s.getAddress l.pointer = s₀.getAddress l.pointer from
    value_of_sameStart hsame List.mem_cons_self]

theorem handed_of_run {ranges : List (Address × Address)} {hs : DummyPeripheral X × PCodeState O}
    {tr : List ((DummyPeripheral X × PCodeState O) × Unit)} (hl : l.WellFormed) (hst : l.Steady)
    (hbytes : ∀ o ∈ l.live, o.isRegister = true → s.value o = (s.getOperandU8 o).toNat)
    (hor : ∀ op ∈ l.ops, isBoolOr op = false) (hidle : Idle ranges false h)
    (hin : InRange ranges (s.getAddress l.pointer)) (hrun : Run (l.GoesBack env) (h, s) tr hs) :
    l.Handed ranges s (tr = []) hs := by
  refine hrun.history (fun past hs => l.Handed ranges s (past = []) hs)
    ⟨hidle, fun _ _ => rfl, fun _ => rfl, fun hnot => absurd rfl hnot⟩ ?_
  intro past q _ t _ hq hback
  obtain ⟨goesOn, h', s', hiter, -, hidle', hsame, hsolved⟩ :=
    iterate_miss env hl hst hq.idle (inRange_of_sameStart hq.same hin)
      (DummyPeripheral.cached_of_disabled hq.idle.cache _)
  have ht : t = (h', s') := by
    rw [show l.iterate env q = .ok (true, t) from hback] at hiter
    exact (Prod.mk.inj (Except.ok.inj hiter)).2
  rw [ht]
  refine ⟨hidle', fun o ho => (hsame o ho).trans (hq.same o ho), fun hnil => ?_, fun _ hx => ?_⟩
  · simp at hnil
  · have hiff := solverExits_iff hl hq.same hbytes hor
    obtain ⟨x, hx⟩ := hx
    exact (hiff _).mp (hsolved ⟨x, (hiff x).mpr hx⟩).1

end IterationLemmas

open IterationLemmas

/-! ## The whole loop -/

variable {env : SolverEnv X} {h h' : DummyPeripheral X} {s s' : PCodeState O} {l : PollingLoop}

/-- For every solver that is sound and complete and every steady loop whose live registers hold
bytes, and that has no Boolean disjunction: however often its branch has gone back, the next
iteration does not panic. The first one leaves the loop if the location already held a value
that ends it, and every other one leaves it exactly if there is such a value. -/
theorem iterate_of_run {ranges : List (Address × Address)} (hl : l.WellFormed) (hst : l.Steady)
    (hbytes : ∀ o ∈ l.live, o.isRegister = true → s.value o = (s.getOperandU8 o).toNat)
    (hor : ∀ op ∈ l.ops, isBoolOr op = false) (hidle : Idle ranges false h)
    (hin : InRange ranges (s.getAddress l.pointer))
    {tr : List ((DummyPeripheral X × PCodeState O) × Unit)}
    (hrun : Run (l.GoesBack env) (h, s) tr (h', s')) :
    ∃ goesOn h'' s'', l.iterate env (h', s') = .ok (goesOn, h'', s'') ∧ Idle ranges false h'' ∧
      (tr = [] → (goesOn = false ↔ l.Exits s (l.polled s))) ∧
      (tr ≠ [] → (goesOn = false ↔ ∃ x, l.Exits s x)) := by
  have hend := handed_of_run hl hst hbytes hor hidle hin hrun
  obtain ⟨goesOn, h'', s'', hiter, hleaves, hidle'', -, -⟩ :=
    iterate_miss env hl hst hend.idle (inRange_of_sameStart hend.same hin)
      (DummyPeripheral.cached_of_disabled hend.idle.cache _)
  rw [exits_iff hl hend.same] at hleaves
  refine ⟨goesOn, h'', s'', hiter, hidle'', fun hnil => ?_, fun hne => ?_⟩
  · rw [hleaves, hend.begins hnil]
  · rw [hleaves]
    exact ⟨fun hx => ⟨_, hx⟩, hend.solved hne⟩

/-- Waiting for 0x5a goes round once: the location holds 0, and then the solver's answer. -/
theorem iterate_of_run_wait : waitLoop.Steady ∧ ∀ env : SolverEnv termApi,
    ∃ hs, waitLoop.iterate env (configured [(0, 0xff)] false, waitState 0x5a) = .ok (true, hs) ∧
      ∃ hs', waitLoop.iterate env hs = .ok (false, hs') := by
  have hst : waitLoop.Steady := by decide
  refine ⟨hst, fun env => ?_⟩
  have hbytes : ∀ o ∈ waitLoop.live, o.isRegister = true →
      (waitState 0x5a).value o = ((waitState 0x5a).getOperandU8 o).toNat := by
    decide +kernel
  have hin : InRange [(0, 0xff)] ((waitState 0x5a).getAddress waitLoop.pointer) :=
    poller_inRange (X := termApi) 0x5a
  have hidle : Idle [(0, 0xff)] false (configured [(0, 0xff)] false : DummyPeripheral termApi) :=
    CacheLemmas.idle_configured _ _
  have hstart : Run (waitLoop.GoesBack env) (configured [(0, 0xff)] false, waitState 0x5a) []
      (configured [(0, 0xff)] false, waitState 0x5a) := .nil _
  obtain ⟨goesOn, h₁, s₁, hiter, -, hfirst, -⟩ :=
    iterate_of_run waitLoop_wellFormed hst hbytes (by decide) hidle hin hstart
  have hback : goesOn = true := by
    rw [← Bool.not_eq_false, hfirst rfl]
    decide +kernel
  rw [hback] at hiter
  obtain ⟨goesOn', h₂, s₂, hiter', -, -, hnext⟩ := iterate_of_run waitLoop_wellFormed hst hbytes
    (by decide) hidle hin (.cons (e := ()) hiter (.nil _))
  rw [(hnext (by simp)).mpr ⟨0x5a, by decide +kernel⟩] at hiter'
  exact ⟨_, hiter, _, hiter'⟩

end PollingLoop

end FuguexPeripheral
