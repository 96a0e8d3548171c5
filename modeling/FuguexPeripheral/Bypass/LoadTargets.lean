import FuguexPeripheral.Bypass.Solutions
import FuguexPeripheral.Bypass.Term

/-!
# Targets that are replaced

A load makes its pointer operand a target. The targets are kept under the names of the operands,
so a load through an operand replaces the target of an earlier one, from whatever address.

Results:
1. `lookup_built`: the target under a name is the one that was last loaded through it.
2. `targets_kept_iff`: when every address that was loaded from gets a result.
3. `not_targets_kept`: two loads through one register.
-/

namespace FuguexPeripheral

open ByteStore Runs

namespace ConstraintSolver

variable {X : SymExprApi} {O : Order} {env : SolverEnv X} {vars : String → Option Nat}
  {tr : List (ConstraintSolver X × (PCodeState O × PCodeOp))} {c c' : ConstraintSolver X}
  {s : PCodeState O} {operand : Operand} {expected : Nat}
  {res : Option (AList fun _ : Address => Option Nat)} {a : Address}

/-- The name of the operand that a call loads through, and the address it holds. -/
def loadedThrough (call : PCodeState O × PCodeOp) : Option (String × Address) :=
  match call.2 with
  | .load source _ => (Variables.genVariableName source).map fun key =>
      (key, call.1.getAddress source)
  | _ => none

/-- The loads of a sequence of calls. -/
def loads (tr : List (ConstraintSolver X × (PCodeState O × PCodeOp))) : List (String × Address) :=
  tr.filterMap fun x => loadedThrough x.2

/-- The address that was last loaded from through each operand. -/
def lastAddress (l : List (String × Address)) : String → Option Address :=
  l.foldl (fun last x => Function.update last x.1 (some x.2)) fun _ => none

namespace LoadTargetLemmas

/-- A load makes the address the one of its pointer. -/
theorem lookup_step {call : PCodeState O × PCodeOp} (hstep : AddStep c call c') :
    (fun key => (c'.varToSolve.lookup key).map Prod.snd) =
      (loadedThrough call).elim (fun key => (c.varToSolve.lookup key).map Prod.snd)
        fun x => Function.update (fun key => (c.varToSolve.lookup key).map Prod.snd) x.1
          (some x.2) := by
  obtain ⟨s, op⟩ := call
  rcases addPcode_varToSolve hstep with ⟨hnot, heq⟩ | ⟨source, destination, key, e, heq, hkey, hins⟩
  · have hnone : loadedThrough (s, op) = none := by
      cases op with
      | load source destination => exact absurd rfl (hnot source destination)
      | store | copy | branch | cbranch | ibranch | call | icall | ret | subpiece | binary | unary
      | skip | other => rfl
    rw [hnone, heq]
    rfl
  · dsimp only at heq
    subst heq
    have hsome : loadedThrough (s, .load source destination) =
        some (key, s.getAddress source) := by
      unfold loadedThrough
      dsimp only
      rw [hkey]
      rfl
    rw [hsome, hins]
    funext key'
    rw [Option.elim_some]
    by_cases hsame : key' = key
    · subst hsame
      rw [Function.update_self, AList.lookup_insert]
      rfl
    · rw [Function.update_of_ne hsame, AList.lookup_insert_ne hsame]

end LoadTargetLemmas

open LoadTargetLemmas

/-- The target under a name is at the address that was last loaded from through it. -/
theorem lookup_built (hr : Built vars tr c) (key : String) :
    (c.varToSolve.lookup key).map Prod.snd = lastAddress (loads tr) key :=
  congrFun (hr.project (fun c key => (c.varToSolve.lookup key).map Prod.snd) loadedThrough
    (fun last x => Function.update last x.1 (some x.2)) (fun _ => True) trivial
    (fun _ _ _ _ _ => trivial) fun _ _ _ _ hstep => lookup_step hstep) key

namespace LoadTargetLemmas

/-- The results are for the addresses that were last loaded from through an operand. -/
theorem mem_result_iff (hr : Built vars tr c)
    (hsolve : c.solve env s operand expected = .ok (res, c')) :
    (∃ result, res = some result ∧ a ∈ result) ↔ ∃ key, lastAddress (loads tr) key = some a := by
  have htargets : (∃ e, (e, a) ∈ c.targets) ↔ ∃ key, lastAddress (loads tr) key = some a := by
    constructor
    · rintro ⟨e, hmem⟩
      obtain ⟨key, hkey⟩ := mem_targets.mp hmem
      refine ⟨key, ?_⟩
      rw [← lookup_built hr, AList.mem_lookup_iff.mpr hkey]
      rfl
    · rintro ⟨key, hkey⟩
      rw [← lookup_built hr] at hkey
      obtain ⟨⟨e, a'⟩, hlookup, rfl⟩ := Option.map_eq_some_iff.mp hkey
      exact ⟨e, mem_targets.mpr ⟨key, AList.mem_lookup_iff.mp hlookup⟩⟩
  rw [← htargets]
  cases res with
  | some result =>
    rw [← solve_keys hsolve]
    constructor
    · rintro ⟨result', heq, hmem⟩
      cases heq
      exact hmem
    · exact fun hmem => ⟨result, rfl, hmem⟩
  | none =>
    obtain ⟨e, -, ⟨hnil, -⟩ | ⟨-, hsome⟩⟩ := solve_cases hsolve
    · rw [hnil]
      constructor
      · rintro ⟨result, hnone, -⟩
        cases hnone
      · rintro ⟨e, hmem⟩
        cases hmem
    · cases hsome

/-- Every load of the sequence is listed. -/
theorem mem_loads_iff (hr : Built vars tr c) :
    (∃ key, (key, a) ∈ loads tr) ↔
      ∃ q s source destination, (q, (s, .load source destination)) ∈ tr ∧
        s.getAddress source = a := by
  constructor
  · rintro ⟨key, hmem⟩
    obtain ⟨⟨q, s, op⟩, hmem, hload⟩ := List.mem_filterMap.mp hmem
    cases op with
    | load source destination =>
      obtain ⟨key', -, heq⟩ := Option.map_eq_some_iff.mp hload
      exact ⟨q, s, source, destination, hmem, congrArg Prod.snd heq⟩
    | store | copy | branch | cbranch | ibranch | call | icall | ret | subpiece | binary | unary
    | skip | other => cases hload
  · rintro ⟨q, s, source, destination, hmem, rfl⟩
    obtain ⟨-, -, q', -, -, hstep, -⟩ := hr.mem hmem
    rcases addPcode_varToSolve hstep with ⟨hnot, -⟩ | ⟨source', destination', key, e, heq, hkey, -⟩
    · exact absurd rfl (hnot source destination)
    · cases heq
      refine ⟨key, List.mem_filterMap.mpr ⟨_, hmem, ?_⟩⟩
      unfold loadedThrough
      dsimp only
      rw [hkey]
      rfl

end LoadTargetLemmas

open LoadTargetLemmas

/-- Every address that a load of the sequence read from has an entry in the results of `solve` if
and only if each of them is the address that was last loaded from through some operand. -/
theorem targets_kept_iff (hr : Built vars tr c)
    (hsolve : c.solve env s operand expected = .ok (res, c')) :
    (∀ q t source destination, (q, (t, .load source destination)) ∈ tr →
      ∃ result, res = some result ∧ t.getAddress source ∈ result) ↔
    ∀ x ∈ loads tr, ∃ key, lastAddress (loads tr) key = some x.2 := by
  constructor
  · rintro hall ⟨key, a⟩ hload
    obtain ⟨q, t, source, destination, hmem, rfl⟩ := (mem_loads_iff hr).mp ⟨key, hload⟩
    exact (mem_result_iff hr hsolve).mp (hall q t source destination hmem)
  · intro hlast q t source destination hmem
    obtain ⟨key, hkey⟩ := (mem_loads_iff hr).mpr ⟨q, t, source, destination, hmem, rfl⟩
    exact (mem_result_iff hr hsolve).mpr (hlast _ hkey)

/-! ## Two loads through one register -/

namespace LoadTargetLemmas

/-- A state in which `r0` points to the address. -/
def pointingTo (a : Address) : PCodeState .le :=
  PCodeState.setValue { spaces := fun _ _ => 0, programCounter := 0 } (.register "r0" 0 4) a

/-- Loads through `r0`, from the addresses. -/
def callsThrough (addresses : List Address) : List (PCodeState .le × PCodeOp) :=
  addresses.map fun a => (pointingTo a, .load (.register "r0" 0 4) (.register "r1" 4 4))

def traceThrough (addresses : List Address) :
    List (ConstraintSolver termApi × (PCodeState .le × PCodeOp)) × ConstraintSolver termApi :=
  tracePartial (fun c x => c.addPcode x.2 x.1) (new.setDefaultVariables fun _ => none)
    (callsThrough addresses)

theorem run_traceThrough (addresses : List Address) :
    Built (fun _ => none) (traceThrough addresses).1 (traceThrough addresses).2 :=
  run_tracePartial _ _ (callsThrough addresses)

end LoadTargetLemmas

/-- Two loads from one address. -/
theorem targets_kept_iff_twice :
    ∃ res c', (traceThrough [16, 16]).2.solve (.preferring termApi fun _ => 0) (pointingTo 16)
        (.register "r1" 4 4) 0 = .ok (res, c') ∧
      ((∀ q t source destination, (q, (t, .load source destination)) ∈ (traceThrough [16, 16]).1 →
        ∃ result, res = some result ∧ t.getAddress source ∈ result) ↔
      ∀ x ∈ loads (traceThrough [16, 16]).1,
        ∃ key, lastAddress (loads (traceThrough [16, 16]).1) key = some x.2) := by
  have hread : (traceThrough [16, 16]).2.symexprFromOperandRead (pointingTo 16)
      (.register "r1" 4 4) = .ok (Term.extract (.ivar ⟨"r0-1", 32⟩) 0 32,
        (traceThrough [16, 16]).2) := by
    rfl
  have hsolve := solve_of_read (.preferring termApi fun _ => 0) 0 hread (List.cons_ne_nil _ _)
  exact ⟨_, _, hsolve, targets_kept_iff (run_traceThrough [16, 16]) hsolve⟩

/-- Of two addresses the first is lost. -/
theorem not_targets_kept :
    ∃ tr, ∃ c : ConstraintSolver termApi, Built (O := .le) (fun _ => none) tr c ∧
      ∃ (env : SolverEnv termApi) (res : Option _) (c' : ConstraintSolver termApi),
        c.solve env (pointingTo 32) (.register "r1" 4 4) 0 = .ok (res, c') ∧
        ∃ q t source destination, (q, (t, .load source destination)) ∈ tr ∧
          ¬ ∃ result, res = some result ∧ t.getAddress source ∈ result := by
  have hread : (traceThrough [16, 32]).2.symexprFromOperandRead (pointingTo 32)
      (.register "r1" 4 4) = .ok (Term.extract (.ivar ⟨"r0-1", 32⟩) 0 32,
        (traceThrough [16, 32]).2) := by
    rfl
  have htargets : (traceThrough [16, 32]).2.targets = [(Term.ivar ⟨"r0-1", 32⟩, 32)] := by rfl
  have hsolve := solve_of_read (.preferring termApi fun _ => 0) 0 hread
    (by rw [htargets]; exact List.cons_ne_nil _ _)
  refine ⟨_, _, run_traceThrough [16, 32], _, _, _, hsolve, _, pointingTo 16, .register "r0" 0 4,
    .register "r1" 4 4, List.mem_cons_self, ?_⟩
  rintro ⟨result, heq, hmem⟩
  rw [heq] at hsolve
  obtain ⟨e, hmem⟩ := (solve_keys hsolve).mp hmem
  rw [htargets] at hmem
  cases List.mem_singleton.mp hmem

end ConstraintSolver

end FuguexPeripheral
