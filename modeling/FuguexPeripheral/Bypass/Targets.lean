import FuguexPeripheral.Bypass.Steps
import FuguexPeripheral.Bypass.Term

/-!
# Where the bypass writes

The hook checks the ranges when a load opens a session; the solver collects a target
for every load of the session. So the hook stays inside the peripheral as long as
every load it tracks is from the peripheral.

Results:
1. `targets_step`: the targets of the solver stay in range over an event that tracks
   no load from elsewhere.
2. `writes_in_range`: in a run of such events every byte the hook changes lies in a
   location that starts in a configured range.
3. `ram_overwritten`: RAM that is loaded inside the loop is overwritten.
-/

namespace FuguexPeripheral

open ByteStore Fallible Runs

namespace DummyPeripheral

variable {X : SymExprApi} {O : Order} {env : SolverEnv X} {h h' : DummyPeripheral X}
  {s s' : PCodeState O}

/-- The pointer of a load, the address it holds, and the size of the load. -/
def loadedFrom : PeripheralEvent O → Option (Operand × Address × Nat)
  | .operation s (.load source destination) =>
    some (source, s.getAddress source, destination.size)
  | _ => none

/-- If the event is a load in a tracked session, it loads from a configured range; and
if it is served from the cache, its pointer is not in the memory that this changes. -/
def TracksInRange (h : DummyPeripheral X) (e : PeripheralEvent O) : Prop :=
  ∀ l ∈ loadedFrom e, h.tracking = true →
    InRange h.addressRangeList l.2.1 ∧ ((h.cached l.2.1).isSome →
      ∀ n ∈ cachedSlice O l.2.2, (Operand.address l.2.1 n).NoOverlap l.1)

instance (h : DummyPeripheral X) (e : PeripheralEvent O) : Decidable (h.TracksInRange e) :=
  inferInstanceAs (Decidable (∀ l ∈ loadedFrom e, h.tracking = true →
    InRange h.addressRangeList l.2.1 ∧ ((h.cached l.2.1).isSome →
      ∀ n ∈ cachedSlice O l.2.2, (Operand.address l.2.1 n).NoOverlap l.1)))

/-- The size of the locations that a step writes. -/
def accessSize (h : DummyPeripheral X) : PCodeOp → Nat
  | .load _ destination => destination.size
  | _ => h.lastMemReadEvent.size

/-- The byte at `x` belongs to a location of `n` bytes that starts in a range. -/
def InLocation (ranges : List (Address × Address)) (n x : Nat) : Prop :=
  ∃ k, InRange ranges k ∧ k ≤ x ∧ x < k + n

/-- Every byte of memory that the hook changes at this event is in the peripheral. -/
def WritesInRange (env : SolverEnv X) (h : DummyPeripheral X) : PeripheralEvent O → Prop
  | .operation s op => ∀ h' s', h.hookOperationStep env s op = .ok (h', s') →
      ∀ x, s'.memory x ≠ s.memory x → InLocation h.addressRangeList (h.accessSize op) x
  | _ => True

/-- Every target of the solver is in a configured range. -/
def TargetsInRange (h : DummyPeripheral X) : Prop :=
  ∀ entry ∈ h.solver.varToSolve.entries, InRange h.addressRangeList entry.2.2

/-! ## The targets -/

namespace TargetLemmas

theorem inRange_append {ranges : List (Address × Address)} {range : Address × Address}
    {a : Address} (hin : InRange ranges a) : InRange (ranges ++ [range]) a := by
  obtain ⟨r, hr, hra⟩ := hin
  exact ⟨r, List.mem_append_left _ hr, hra⟩

theorem mem_insert_entries {V : Type} {m : AList fun _ : String => V} {key : String} {v : V}
    {entry : Sigma fun _ : String => V} (hmem : entry ∈ (m.insert key v).entries) :
    entry = ⟨key, v⟩ ∨ entry ∈ m.entries := by
  rw [AList.entries_insert] at hmem
  rcases List.mem_cons.mp hmem with heq | hmem
  · exact .inl heq
  · exact .inr ((List.kerase_sublist _ _).subset hmem)

/-- An arm keeps the ranges, and keeps the targets or drops them all. -/
theorem onOperation_targets {op : PCodeOp} (harm : h.onOperation env s op = .ok (h', s')) :
    h'.addressRangeList = h.addressRangeList ∧
      (h'.solver.varToSolve = h.solver.varToSolve ∨ h'.solver.varToSolve = ∅) := by
  cases op with
  | load source destination =>
    rcases onLoad_cases harm with ⟨-, rfl, -⟩ | ⟨-, r, n, -, -, rfl, -⟩ | ⟨-, -, rfl, -⟩
    · exact ⟨rfl, .inl rfl⟩
    · exact ⟨rfl, .inl rfl⟩
    · exact ⟨rfl, .inr rfl⟩
  | store source destination =>
    cases harm
    unfold onStore
    split
    · exact ⟨rfl, .inl rfl⟩
    · exact ⟨rfl, .inl rfl⟩
  | cbranch destination condition =>
    rcases onCBranch_cases harm with ⟨-, -, rfl⟩ | ⟨-, result, solver, hsolve, hfold⟩
    · obtain ⟨hranges, hsolver, -⟩ := checkLoop_fields h s destination condition
      exact ⟨hranges, .inl (by rw [hsolver])⟩
    · obtain ⟨results, hresults⟩ := writeSolutions_hook
        ((result.map fun r => env.resultOrder (r.entries.map fun e => (e.1, e.2))).getD [])
        ({ h.stop with solver := solver }, s)
      rw [← hfold] at hresults
      dsimp only at hresults
      rw [hresults]
      obtain ⟨⟨e, c⟩, hread, hrest⟩ := exists_of_bind_eq_ok hsolve
      cases hrest
      exact ⟨rfl, .inl (ConstraintSolver.read_varToSolve hread)⟩
  | icall destination =>
    cases harm
    obtain ⟨hranges, hsolver, -⟩ := countFunCall_fields h 1
    exact ⟨hranges, .inl (by rw [onICall, hsolver])⟩
  | ret destination =>
    cases harm
    obtain ⟨hranges, hsolver, -⟩ := countFunCall_fields h (-1)
    exact ⟨hranges, .inl (by rw [onReturn, hsolver])⟩
  | copy | branch | ibranch | call | subpiece | binary | unary | skip | other =>
    cases harm
    exact ⟨rfl, .inl rfl⟩

theorem cachedSlice_le {n m : Nat} (hslice : cachedSlice O n = some m) : m ≤ n ∧ m ≤ 8 := by
  unfold cachedSlice at hslice
  split at hslice <;> cases hslice <;> decide

/-- A load from outside the ranges does not start the tracking. -/
theorem inRange_of_tracking {source destination : Operand}
    (htracks : h.TracksInRange (.operation s (.load source destination)))
    (harm : h.onOperation env s (.load source destination) = .ok (h', s'))
    (ht : h'.tracking = true) : InRange h.addressRangeList (s'.getAddress source) := by
  rcases onLoad_cases harm with
    ⟨-, rfl, rfl⟩ | ⟨hin, r, n, hr, hslice, rfl, rfl⟩ | ⟨hin, -, rfl, rfl⟩
  · exact (htracks _ rfl ht).1
  · obtain ⟨-, hapart⟩ := htracks _ rfl ht
    have hno := hapart (by simp [hr]) n hslice
    have hlength : ((encode O 8 r.value).take n).length = n := by
      rw [List.length_take, length_encode, Nat.min_eq_left (cachedSlice_le hslice).2]
    rw [← hlength] at hno
    rw [PCodeState.getAddress, PCodeState.value_setValues_of_noOverlap hno]
    exact hin
  · exact hin

end TargetLemmas

open TargetLemmas

/-- The targets stay in range over an event that tracks no load from elsewhere. -/
theorem targets_step {e : PeripheralEvent O} (htracks : h.TracksInRange e)
    (htargets : h.TargetsInRange) (hstep : Step env h e h') : h'.TargetsInRange := by
  cases e with
  | operation s op =>
    obtain ⟨s', hstep⟩ := step_operation hstep
    obtain ⟨h₁, solver, harm, hadd, rfl⟩ := hookOperationStep_cases hstep
    obtain ⟨hranges, hvars⟩ := onOperation_targets harm
    have harm' : ∀ entry ∈ h₁.solver.varToSolve.entries,
        InRange h₁.addressRangeList entry.2.2 := by
      intro entry hentry
      rw [hranges]
      rcases hvars with heq | heq
      · rw [heq] at hentry
        exact htargets entry hentry
      · rw [heq] at hentry
        cases hentry
    rcases hadd with ⟨-, rfl⟩ | ⟨ht, hadd⟩
    · exact harm'
    · rcases ConstraintSolver.addPcode_varToSolve hadd with
        ⟨-, heq⟩ | ⟨source, destination, key, e, rfl, -, heq⟩
      · intro entry hentry
        exact harm' entry (heq ▸ hentry)
      · intro entry hentry
        dsimp only at hentry
        rw [heq] at hentry
        rcases mem_insert_entries hentry with rfl | hentry
        · exact hranges ▸ inRange_of_tracking htracks harm ht
        · exact harm' entry hentry
  | addAddressRange range =>
    cases hstep
    exact fun entry hentry => inRange_append (htargets entry hentry)
  | architectural | enableCache | addDefaultReg =>
    cases hstep
    exact htargets

/-! ## The bytes -/

namespace TargetLemmas

/-- With its targets in range, the hook writes in range. -/
theorem writes_step {op : PCodeOp} (htargets : h.TargetsInRange)
    (hstep : h.hookOperationStep env s op = .ok (h', s')) {x : Nat}
    (hx : s'.memory x ≠ s.memory x) :
    InLocation h.addressRangeList (h.accessSize op) x := by
  obtain ⟨h₁, solver, harm, -, -⟩ := hookOperationStep_cases hstep
  by_contra hnot
  have hout : ∀ k, InRange h.addressRangeList k → Outside x k (h.accessSize op) := by
    intro k hk
    by_contra hin
    obtain ⟨hge, hlt⟩ := not_or.mp hin
    exact hnot ⟨k, hk, not_lt.mp hge, not_le.mp hlt⟩
  refine hx ?_
  cases op with
  | load source destination =>
    rcases onLoad_cases harm with ⟨-, -, rfl⟩ | ⟨hin, r, n, -, hn, -, rfl⟩ | ⟨-, -, -, rfl⟩
    · rfl
    · rw [PCodeState.memory_setValues]
      refine Store.write_apply_outside ?_
      have hle := (cachedSlice_le hn).1
      rw [List.length_take, length_encode]
      rcases hout _ hin with hlt | hge
      · exact .inl hlt
      · refine .inr (le_trans ?_ hge)
        exact Nat.add_le_add_left (le_trans (min_le_left _ _) hle) _
    · rfl
  | cbranch destination condition =>
    rcases onCBranch_cases harm with ⟨-, rfl, -⟩ | ⟨-, result, solver, hsolve, hfold⟩
    · rfl
    · rw [show s' = _ from congrArg Prod.snd hfold]
      refine writeSolutions_memory ?_
      intro kv hkv
      cases result with
      | none => cases hkv
      | some r =>
        have hmem := (env.resultOrder_perm _).mem_iff.mp hkv
        obtain ⟨entry, hentry, rfl⟩ := List.mem_map.mp hmem
        obtain ⟨e, hmem'⟩ :=
          (ConstraintSolver.solve_keys hsolve).mp (List.mem_keys_of_mem hentry)
        obtain ⟨key, htarget⟩ := ConstraintSolver.mem_targets.mp hmem'
        exact hout _ (htargets _ htarget)
  | store | icall | ret | copy | branch | ibranch | call | subpiece | binary | unary | skip
  | other =>
    cases harm
    rfl

end TargetLemmas

/-- In every run whose events track no load from outside the configured ranges, every
byte of memory that the hook changes belongs to a location that starts in a range. -/
theorem writes_in_range {tr : List (DummyPeripheral X × PeripheralEvent O)}
    (hr : History env tr h) (htracks : ∀ x ∈ tr, x.1.TracksInRange x.2) :
    ∀ x ∈ tr, x.1.WritesInRange env x.2 := by
  have htargets : ∀ {past : List (DummyPeripheral X × PeripheralEvent O)} {q},
      History env past q → (∀ x ∈ past, x.1.TracksInRange x.2) → q.TargetsInRange := by
    intro past q hpast
    refine hpast.history (fun past q => (∀ x ∈ past, x.1.TracksInRange x.2) → q.TargetsInRange)
      (by intro _ entry hentry; cases hentry) ?_
    intro past q e t _ ih hstep hall
    exact targets_step (hall (q, e) (List.mem_append_right _ List.mem_cons_self))
      (ih fun x hx => hall x (List.mem_append_left _ hx)) hstep
  intro x hx
  obtain ⟨past, rest, rfl⟩ := List.append_of_mem hx
  obtain ⟨q, e⟩ := x
  have hq := htargets hr.at.1 fun y hy => htracks y (List.mem_append_left _ hy)
  cases e with
  | operation s op => exact fun h' s' hstep y hy => writes_step hq hstep hy
  | architectural | addAddressRange | enableCache | addDefaultReg => trivial

namespace TargetLemmas

/-- The pointer to the polled location, and a pointer into RAM. -/
def statusPtr : Operand :=
  .register "r0" 0 4

def ramPtr : Operand :=
  .register "r2" 8 4

def targetState : PCodeState .le :=
  (({ spaces := fun _ _ => 0, programCounter := 0x10 } : PCodeState .le).setValue
    statusPtr 0x100).setValue ramPtr 0x8000

/-- `while (*status != 1) x = *ram;`, with the load of `x` left out or in. -/
def targetEvents (ram : List (PeripheralEvent .le)) : List (PeripheralEvent .le) :=
  [.addAddressRange (0x100, 0x1ff),
    .operation targetState (.load statusPtr (.register "r1" 4 4))] ++ ram ++
  [.operation targetState (.binary .intNotEq (.register "z" 16 1) (.register "r1" 4 4)
      (.constant 1 4)),
    .operation targetState (.cbranch (.address 0x10 4) (.register "z" 16 1))]

noncomputable def targetEnv : SolverEnv termApi :=
  .preferring termApi fun _ => 1

noncomputable def targetTrace (ram : List (PeripheralEvent .le)) :
    List (DummyPeripheral termApi × PeripheralEvent .le) × DummyPeripheral termApi :=
  tracePartial (fun h e => PeripheralEvent.apply targetEnv h e) new (targetEvents ram)

end TargetLemmas

/-- The loop without the load from RAM: all its four events are taken. -/
theorem writes_in_range_status :
    (targetTrace []).1.length = 4 ∧
      ∀ x ∈ (targetTrace []).1, x.1.WritesInRange targetEnv x.2 :=
  ⟨by decide +kernel,
    writes_in_range (run_tracePartial _ new (targetEvents [])) (by decide +kernel)⟩

namespace TargetLemmas

/-- The event changes the byte at `a`. -/
def changes (env : SolverEnv X) (x : DummyPeripheral X × PeripheralEvent O) (a : Address) :
    Bool :=
  match x.2 with
  | .operation s op =>
    match x.1.hookOperationStep env s op with
    | .ok (_, s') => s'.memory a != s.memory a
    | .error _ => false
  | _ => false

def operationOf : PeripheralEvent O → PCodeOp
  | .operation _ op => op
  | _ => .skip

theorem inLocation_of_changes {x : DummyPeripheral X × PeripheralEvent O} {a : Address}
    (hchanges : changes env x a = true) (hwrites : x.1.WritesInRange env x.2) :
    InLocation x.1.addressRangeList (x.1.accessSize (operationOf x.2)) a := by
  obtain ⟨q, e⟩ := x
  unfold changes at hchanges
  split at hchanges
  next s op he =>
    subst he
    split at hchanges
    next q' s' hstep => exact hwrites q' s' hstep a (bne_iff_ne.mp hchanges)
    next => cases hchanges
  next => cases hchanges

/-- The load of `x` from RAM. -/
def ramLoad : PeripheralEvent .le :=
  .operation targetState (.load ramPtr (.register "r3" 12 4))

end TargetLemmas

/-- With the load from RAM in the loop, RAM is overwritten. -/
theorem ram_overwritten :
    ¬ ∀ (tr : List (DummyPeripheral termApi × PeripheralEvent .le)) h,
      History targetEnv tr h → ∀ x ∈ tr, x.1.WritesInRange targetEnv x.2 := by
  intro hall
  have hrun := hall _ _ (run_tracePartial (fun h e => PeripheralEvent.apply targetEnv h e) new
    (targetEvents [ramLoad]))
  have hany : (targetTrace [ramLoad]).1.any (fun x => changes targetEnv x 0x8000 &&
      x.1.addressRangeList == [(0x100, 0x1ff)] && x.1.accessSize (operationOf x.2) == 4) =
      true := by
    decide +kernel
  obtain ⟨x, hx, hat⟩ := List.any_eq_true.mp hany
  rw [Bool.and_eq_true, Bool.and_eq_true, beq_iff_eq, beq_iff_eq] at hat
  obtain ⟨⟨hchanges, hranges⟩, hsize⟩ := hat
  obtain ⟨k, ⟨r, hr, hle⟩, hk, hlt⟩ := inLocation_of_changes hchanges (hrun x hx)
  rw [hranges, List.mem_singleton] at hr
  rw [hsize] at hlt
  rw [hr] at hle
  exact absurd (lt_of_lt_of_le hlt (Nat.add_le_add_right hle.2 4)) (by decide)

end DummyPeripheral

end FuguexPeripheral
