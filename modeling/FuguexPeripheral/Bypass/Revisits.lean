import FuguexPeripheral.Bypass.Iterations

/-!
# Polling loops that are visited again

The emulator comes back to a polling loop, and finds other values at the location. With the
cache on this makes no difference: the first iteration of all solves the loop, and from then on
every iteration is served the solution.

Results:
1. `iterate_hit`: one iteration whose load hits the cache.
2. `learned_of_run`: what the cache holds over the visits.
3. `iterate_of_visits`: what every iteration but the first of all does.
-/

namespace FuguexPeripheral

open ByteStore PCodeOp Runs

variable {X : SymExprApi}

namespace PollingLoop

/-! ## Visits -/

/-- What the emulator does at a loop that it comes back to. -/
inductive VisitEvent
  | iterate
  /-- It does something else, and comes back. -/
  | resume
  deriving DecidableEq, Repr

/-- Something else is anything that leaves the peripheral idle, the entry for the loop in the
cache, and the operands that the loop takes from before. -/
def Visits (env : SolverEnv X) (ranges : List (Address × Address)) (l : PollingLoop)
    (s₀ : PCodeState .le) (hs : DummyPeripheral X × PCodeState .le) :
    VisitEvent → DummyPeripheral X × PCodeState .le → Prop
  | .iterate, hs' => ∃ goesOn, l.iterate env hs = .ok (goesOn, hs')
  | .resume, hs' => Idle ranges true hs'.1 ∧
      hs'.1.cached (s₀.getAddress l.pointer) = hs.1.cached (s₀.getAddress l.pointer) ∧
      l.SameStart s₀ hs'.2

/-- The loop was not iterated yet. -/
def Unvisited {σ : Type} (tr : List (σ × VisitEvent)) : Prop :=
  ∀ x ∈ tr, x.2 ≠ .iterate

/-- What the visits of a loop hand on: the cache has a value that ends the loop once it was
iterated, if there is one. -/
structure Learned (l : PollingLoop) (ranges : List (Address × Address)) (s₀ : PCodeState .le)
    (unvisited : Prop) (hs : DummyPeripheral X × PCodeState .le) : Prop where
  idle : Idle ranges true hs.1
  same : l.SameStart s₀ hs.2
  misses : unvisited → hs.1.cached (s₀.getAddress l.pointer) = none
  knows : ¬ unvisited → (∃ x, l.Exits s₀ x) →
    ∃ r, hs.1.cached (s₀.getAddress l.pointer) = some r ∧ l.Exits s₀ r.value

namespace RevisitLemmas

open IterationLemmas CacheLemmas

variable {env : SolverEnv X} {ranges : List (Address × Address)} {h : DummyPeripheral X}
  {s s₀ : PCodeState .le} {l : PollingLoop}

/-- The loop as a visit that starts in the state it is in. -/
theorem start_memory (l : PollingLoop) (s : PCodeState .le) :
    (⟨l, s⟩ : Visit).start s.memory = s := by
  unfold Visit.start PCodeState.withMemory PCodeState.memory
  rw [Function.update_eq_self]

theorem idle_counted (hidle : Idle ranges true h) (n : Nat) :
    Idle ranges true { h with pcodeCounter := n } :=
  ⟨hidle.ranges, hidle.cache, hidle.stopped, hidle.calls, hidle.noDefaults⟩

/-- Without a session the hook on a branch does nothing. -/
theorem branch_of_idle (env : SolverEnv X) (hidle : Idle ranges true h) (l : PollingLoop)
    (s : PCodeState .le) :
    h.hookOperationStep env s l.branch =
      .ok ({ h with pcodeCounter := h.pcodeCounter + 1 }, s) := by
  have harm : h.onOperation env s l.branch = .ok (h, s) := by
    show DummyPeripheral.onCBranch env h s _ _ = _
    unfold DummyPeripheral.onCBranch
    have hcheck : h.checkLoop s (.address l.target l.targetSize) l.condition = (h, none) := by
      simp [DummyPeripheral.checkLoop, hidle.stopped]
    rw [hcheck]
  exact DummyPeripheral.hookOperationStep_untracked harm
    (by simp [DummyPeripheral.tracking, hidle.stopped])

/-- An iteration whose load hits the cache goes back on the cached value, and calls no
solver. -/
theorem iterate_hit (env : SolverEnv X) (hl : l.WellFormed) (hst : l.Steady)
    (hsize : l.destination.size = 4 ∨ l.destination.size = 8) (hidle : Idle ranges true h)
    (hin : InRange ranges (s.getAddress l.pointer)) {r : SolvingResult}
    (hhit : h.cached (s.getAddress l.pointer) = some r) :
    ∃ goesOn n s', l.iterate env (h, s) = .ok (goesOn, { h with pcodeCounter := n }, s') ∧
      (goesOn = false ↔ l.Exits s r.value) ∧ l.SameStart s s' := by
  have hv : (⟨l, s⟩ : Visit).Polls ranges := ⟨hl, hsize, hin⟩
  obtain ⟨n, s', hemu⟩ := emulate_hit env hidle hv hhit s.memory
  have hfalls : l.Exits s r.value ↔ s'.value l.condition = 0 :=
    (fallsThrough_hit hidle hv hhit).symm.trans (fallsThrough_iff hemu)
  have hload : h.hookOperationStep env (((⟨l, s⟩ : Visit).start s.memory).setPc l.loadPc) l.load =
      .ok ({ h with pcodeCounter := h.pcodeCounter + 1 },
        (((⟨l, s⟩ : Visit).start s.memory).setPc l.loadPc).write (s.getAddress l.pointer)
          l.destination.size r.value) :=
    load_hit hidle hv hhit
  rw [start_memory] at hemu hload
  have hkept : l.SameStart s ((s.setPc l.loadPc).write (s.getAddress l.pointer)
      l.destination.size r.value) := fun o ho =>
    (PCodeState.operandBytes_congr_of_not_inRam (live_not_inRam hl ho) fun _ =>
      PCodeState.spaces_setValues_of_ne _ _ _).trans (operandBytes_setPc s _ o)
  have hsame := upToBranch_keeps hl hst hload hkept hemu
  refine ⟨decide (s'.value l.condition ≠ 0), n + 1, s'.setPc l.branchPc, ?_, ?_, fun o ho =>
    (operandBytes_setPc s' _ o).trans (hsame o ho)⟩
  · have hbranch := branch_of_idle env (idle_counted hidle n) l (s'.setPc l.branchPc)
    unfold iterate
    rw [hemu]
    dsimp only
    rw [hbranch]
    dsimp only
    rw [PCodeState.value_setPc]
  · rw [decide_eq_false_iff_not, not_not]
    exact hfalls.symm

/-- An iteration goes back on what the location holds or on what the cache holds for it. -/
theorem iterate_total (env : SolverEnv X) (hl : l.WellFormed) (hst : l.Steady)
    (hsize : l.destination.size = 4 ∨ l.destination.size = 8) (hidle : Idle ranges true h)
    (hin : InRange ranges (s.getAddress l.pointer)) :
    ∃ goesOn h' s', l.iterate env (h, s) = .ok (goesOn, h', s') ∧ Idle ranges true h' ∧
      l.SameStart s s' ∧ ∃ x, goesOn = false ↔ l.Exits s x := by
  cases hc : h.cached (s.getAddress l.pointer) with
  | none =>
    obtain ⟨goesOn, h', s', hiter, hleaves, hidle', hsame, -⟩ :=
      iterate_miss env hl hst hidle hin hc
    exact ⟨goesOn, h', s', hiter, hidle', hsame, _, hleaves⟩
  | some r =>
    obtain ⟨goesOn, n, s', hiter, hleaves, hsame⟩ := iterate_hit env hl hst hsize hidle hin hc
    exact ⟨goesOn, _, s', hiter, idle_counted hidle n, hsame, _, hleaves⟩

/-- What an iteration adds to what is handed on. -/
theorem learned_iterate {unvisited : Prop} {q q' : DummyPeripheral X × PCodeState .le}
    (hl : l.WellFormed) (hst : l.Steady)
    (hsize : l.destination.size = 4 ∨ l.destination.size = 8)
    (hbytes : ∀ o ∈ l.live, o.isRegister = true → s₀.value o = (s₀.getOperandU8 o).toNat)
    (hor : ∀ op ∈ l.ops, isBoolOr op = false) (hin : InRange ranges (s₀.getAddress l.pointer))
    (hq : l.Learned ranges s₀ unvisited q) {goesOn : Bool}
    (hiter : l.iterate env q = .ok (goesOn, q')) : l.Learned ranges s₀ False q' := by
  obtain ⟨h, s⟩ := q
  have haddr : s.getAddress l.pointer = s₀.getAddress l.pointer :=
    value_of_sameStart hq.same List.mem_cons_self
  have hin' : InRange ranges (s.getAddress l.pointer) := haddr ▸ hin
  cases hc : h.cached (s.getAddress l.pointer) with
  | none =>
    obtain ⟨_, h', s', hiter', -, hidle', hsame, hsolved⟩ :=
      iterate_miss env hl hst hq.idle hin' hc
    cases hiter'.symm.trans hiter
    refine ⟨hidle', fun o ho => (hsame o ho).trans (hq.same o ho), False.elim, fun _ hx => ?_⟩
    have hiff := solverExits_iff hl hq.same hbytes hor
    obtain ⟨x, hx⟩ := hx
    obtain ⟨r, hr, hexits⟩ := (hsolved ⟨x, (hiff x).mpr hx⟩).2 rfl
    exact ⟨r, haddr ▸ hr, (hiff _).mp hexits⟩
  | some r =>
    obtain ⟨_, n, s', hiter', -, hsame⟩ := iterate_hit env hl hst hsize hq.idle hin' hc
    cases hiter'.symm.trans hiter
    rw [haddr] at hc
    refine ⟨idle_counted hq.idle n, fun o ho => (hsame o ho).trans (hq.same o ho), False.elim,
      fun _ hx => ?_⟩
    -- the entry was there before, so the loop was iterated before
    refine hq.knows (fun hunvisited => ?_) hx
    cases (hq.misses hunvisited).symm.trans hc

theorem learned_of_run {tr : List ((DummyPeripheral X × PCodeState .le) × VisitEvent)}
    {hs : DummyPeripheral X × PCodeState .le} (hl : l.WellFormed) (hst : l.Steady)
    (hsize : l.destination.size = 4 ∨ l.destination.size = 8)
    (hbytes : ∀ o ∈ l.live, o.isRegister = true → s.value o = (s.getOperandU8 o).toNat)
    (hor : ∀ op ∈ l.ops, isBoolOr op = false) (hidle : Idle ranges true h)
    (hmiss : h.cached (s.getAddress l.pointer) = none)
    (hin : InRange ranges (s.getAddress l.pointer))
    (hrun : Run (l.Visits env ranges s) (h, s) tr hs) :
    l.Learned ranges s (Unvisited tr) hs := by
  refine hrun.history (fun past hs => l.Learned ranges s (Unvisited past) hs)
    ⟨hidle, fun _ _ => rfl, fun _ => hmiss, fun hnot => absurd (List.forall_mem_nil _) hnot⟩ ?_
  intro past q e t _ hq hstep
  cases e with
  | iterate =>
    obtain ⟨goesOn, hiter⟩ := hstep
    obtain ⟨hidle', hsame, -, hknows⟩ := learned_iterate hl hst hsize hbytes hor hin hq hiter
    refine ⟨hidle', hsame, fun hnone => ?_, fun _ => hknows not_false⟩
    exact absurd rfl (hnone (q, .iterate) (by simp))
  | resume =>
    obtain ⟨hidle', hkept, hsame⟩ := hstep
    have hpast : Unvisited (past ++ [(q, .resume)]) ↔ Unvisited past :=
      List.forall_mem_append.trans (and_iff_left (by simp))
    rw [hpast]
    exact ⟨hidle', hsame, fun hnone => hkept.trans (hq.misses hnone), fun hnot hx => by
      rw [hkept]
      exact hq.knows hnot hx⟩

end RevisitLemmas

open RevisitLemmas IterationLemmas

/-- With the cache on, for every solver that is sound and complete, and every steady loop that
polls 4 or 8 bytes in little endian, whose live registers hold bytes and that has no Boolean
disjunction: however often the emulator has come back to it, and whatever the location holds
by then, an iteration does not panic. The first one of all leaves the loop if the location
holds a value that ends it, and every other one if there is such a value, and then calls no
solver. -/
theorem iterate_of_visits {env : SolverEnv X} {ranges : List (Address × Address)}
    {h h' : DummyPeripheral X} {s s' : PCodeState .le} {l : PollingLoop} (hl : l.WellFormed)
    (hst : l.Steady) (hsize : l.destination.size = 4 ∨ l.destination.size = 8)
    (hbytes : ∀ o ∈ l.live, o.isRegister = true → s.value o = (s.getOperandU8 o).toNat)
    (hor : ∀ op ∈ l.ops, isBoolOr op = false) (hidle : Idle ranges true h)
    (hmiss : h.cached (s.getAddress l.pointer) = none)
    (hin : InRange ranges (s.getAddress l.pointer))
    {tr : List ((DummyPeripheral X × PCodeState .le) × VisitEvent)}
    (hrun : Run (l.Visits env ranges s) (h, s) tr (h', s')) :
    ∃ goesOn h'' s'', l.iterate env (h', s') = .ok (goesOn, h'', s'') ∧ Idle ranges true h'' ∧
      (Unvisited tr → (goesOn = false ↔ l.Exits s (l.polled s'))) ∧
      (¬ Unvisited tr → (goesOn = false ↔ ∃ x, l.Exits s x) ∧
        (goesOn = false → ∃ n, h'' = { h' with pcodeCounter := n })) := by
  have hend := learned_of_run hl hst hsize hbytes hor hidle hmiss hin hrun
  have haddr : s'.getAddress l.pointer = s.getAddress l.pointer :=
    value_of_sameStart hend.same List.mem_cons_self
  have hin' : InRange ranges (s'.getAddress l.pointer) := haddr ▸ hin
  by_cases hunvisited : Unvisited tr
  · have hnone := hend.misses hunvisited
    rw [← haddr] at hnone
    obtain ⟨goesOn, h'', s'', hiter, hleaves, hidle'', -⟩ :=
      iterate_miss env hl hst hend.idle hin' hnone
    rw [exits_iff hl hend.same] at hleaves
    exact ⟨goesOn, h'', s'', hiter, hidle'', fun _ => hleaves, fun hnot => absurd hunvisited hnot⟩
  · by_cases hx : ∃ x, l.Exits s x
    · obtain ⟨r, hr, hexits⟩ := hend.knows hunvisited hx
      rw [← haddr] at hr
      obtain ⟨goesOn, n, s'', hiter, hleaves, -⟩ := iterate_hit env hl hst hsize hend.idle hin' hr
      rw [exits_iff hl hend.same] at hleaves
      refine ⟨goesOn, _, s'', hiter, idle_counted hend.idle n,
        fun hnone => absurd hnone hunvisited, fun _ => ?_⟩
      exact ⟨iff_of_true (hleaves.mpr hexits) hx, fun _ => ⟨n, rfl⟩⟩
    · -- where no value ends the loop, neither the location nor the cache has one
      obtain ⟨goesOn, h'', s'', hiter, hidle'', -, x, hleaves⟩ :=
        iterate_total env hl hst hsize hend.idle hin'
      rw [exits_iff hl hend.same] at hleaves
      have hback : ¬ goesOn = false := fun hfalse => hx ⟨x, hleaves.mp hfalse⟩
      exact ⟨goesOn, h'', s'', hiter, hidle'', fun hnone => absurd hnone hunvisited,
        fun _ => ⟨iff_of_false hback hx, fun hfalse => absurd hfalse hback⟩⟩

/-- Waiting for 0x5a, and then again, from the state that it was first in. -/
theorem iterate_of_visits_wait :
    ∃ hs, waitLoop.iterate (SolverEnv.preferring termApi waitModel)
        (configured [(0, 0xff)] true, waitState 0x5a) = .ok (true, hs) ∧
      ∃ hs', waitLoop.iterate (SolverEnv.preferring termApi waitModel)
        (hs.1, waitState 0x5a) = .ok (false, hs') := by
  have hst : waitLoop.Steady := by decide
  have hbytes : ∀ o ∈ waitLoop.live, o.isRegister = true →
      (waitState 0x5a).value o = ((waitState 0x5a).getOperandU8 o).toNat := by
    decide +kernel
  have hin : InRange [(0, 0xff)] ((waitState 0x5a).getAddress waitLoop.pointer) :=
    poller_inRange (X := termApi) 0x5a
  have hidle : Idle [(0, 0xff)] true (configured [(0, 0xff)] true : DummyPeripheral termApi) :=
    CacheLemmas.idle_configured _ _
  have hstart : Run (waitLoop.Visits (SolverEnv.preferring termApi waitModel) [(0, 0xff)]
      (waitState 0x5a)) (configured [(0, 0xff)] true, waitState 0x5a) []
      (configured [(0, 0xff)] true, waitState 0x5a) := .nil _
  obtain ⟨goesOn, h₁, s₁, hiter, hidle₁, hfirst, -⟩ :=
    iterate_of_visits waitLoop_wellFormed hst (.inl rfl) hbytes (by decide) hidle rfl hin hstart
  have hback : goesOn = true := by
    rw [← Bool.not_eq_false, hfirst (List.forall_mem_nil _)]
    decide +kernel
  rw [hback] at hiter
  have hresume : waitLoop.Visits (SolverEnv.preferring termApi waitModel) [(0, 0xff)]
      (waitState 0x5a) (h₁, s₁) .resume (h₁, waitState 0x5a) := ⟨hidle₁, rfl, fun _ _ => rfl⟩
  have hagain : Run (waitLoop.Visits (SolverEnv.preferring termApi waitModel) [(0, 0xff)]
      (waitState 0x5a)) (configured [(0, 0xff)] true, waitState 0x5a)
      [((configured [(0, 0xff)] true, waitState 0x5a), .iterate), ((h₁, s₁), .resume)]
      (h₁, waitState 0x5a) :=
    .cons ⟨true, hiter⟩ (.cons hresume (.nil _))
  obtain ⟨goesOn', h₂, s₂, hiter', -, -, hnext⟩ := iterate_of_visits waitLoop_wellFormed hst
    (.inl rfl) hbytes (by decide) hidle rfl hin hagain
  rw [(hnext fun hnone => hnone _ List.mem_cons_self rfl).1.mpr ⟨0x5a, by decide +kernel⟩] at hiter'
  exact ⟨_, hiter, _, hiter'⟩

end PollingLoop

end FuguexPeripheral
