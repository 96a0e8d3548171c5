import FuguexPeripheral.Bypass.Steps
import FuguexPeripheral.Bypass.Term

/-!
# Loads that are served from the cache

The first result for an address is put into memory by a typed write of the size of the load.
Later loads put a slice of the eight bytes of the cached value there, and most of the slices
are empty: only the loads of four and eight bytes in little-endian order write anything, and
the ones of two bytes panic.

Results:
1. `addPcode_load_isOk_iff`: which loads the solver takes.
2. `cachedLoad_agrees_iff`: when a cached load leaves the memory that the first one left.
-/

namespace FuguexPeripheral

open ByteStore Fallible

namespace ConstraintSolver

variable {X : SymExprApi} {O : Order}

/-- A load can be added when neither of its operands is a constant. -/
theorem addPcode_load_isOk_iff {c : ConstraintSolver X} {s : PCodeState O}
    {source destination : Operand} :
    (∃ c', c.addPcode (.load source destination) s = .ok c') ↔
      source.isConstant = false ∧ destination.isConstant = false := by
  refine bind_isOk_iff.trans ?_
  constructor
  · rintro ⟨⟨e, c₁⟩, hins, c', hrest⟩
    obtain ⟨key, -, hkey, -, -⟩ := varListInsert_cases hins
    refine ⟨Variables.isConstant_of_key hkey, ?_⟩
    dsimp only at hrest
    rw [hkey] at hrest
    obtain ⟨key', -, hkey', -, -⟩ := varListInsert_cases (insertResult_cases hrest)
    exact Variables.isConstant_of_key hkey'
  · rintro ⟨hsource, hdestination⟩
    obtain ⟨key, hkey⟩ := Variables.genVariableName_isSome hsource
    obtain ⟨key', hkey'⟩ := Variables.genVariableName_isSome hdestination
    obtain ⟨e, c₁, hins⟩ := varListInsert_ok hkey c none
    refine ⟨(e, c₁), hins, ?_⟩
    dsimp only
    rw [hkey]
    exact insertResult_ok hkey' _ _

end ConstraintSolver

namespace DummyPeripheral

variable {X : SymExprApi} {O : Order} {h : DummyPeripheral X} {s : PCodeState O}
  {source destination : Operand} {r : SolvingResult}

/-- The hook leaves the memory that the solving path leaves for the value `v`. -/
def LeavesSolution (env : SolverEnv X) (h : DummyPeripheral X) (s : PCodeState O)
    (source destination : Operand) (v : Nat) : Prop :=
  ∃ h' s', h.hookOperationStep env s (.load source destination) = .ok (h', s') ∧
    s'.memory = (s.write (s.getAddress source) destination.size v).memory

namespace CachedLoadLemmas

/-- After the arm of a load only the solver can stop the step. -/
theorem loadStep_iff {env : SolverEnv X} {s₁ : PCodeState O} (P : PCodeState O → Prop)
    (harm : h.onLoad s source destination = .ok (h, s₁)) :
    (∃ h' s', h.hookOperationStep env s (.load source destination) = .ok (h', s') ∧ P s') ↔
      (h.tracking = true → source.isConstant = false ∧ destination.isConstant = false) ∧ P s₁ := by
  rw [← ConstraintSolver.addPcode_load_isOk_iff (c := h.solver) (s := s₁)]
  constructor
  · rintro ⟨h', s', hstep, hP⟩
    obtain ⟨h₁, solver, harm', hadd, -⟩ := hookOperationStep_cases hstep
    obtain ⟨rfl, rfl⟩ := Prod.mk.inj (Except.ok.inj (harm.symm.trans harm'))
    refine ⟨fun ht => ?_, hP⟩
    rcases hadd with ⟨hnot, -⟩ | ⟨-, hadd⟩
    · exact absurd (ht.symm.trans hnot) (by decide)
    · exact ⟨solver, hadd⟩
  · rintro ⟨hadds, hP⟩
    cases ht : h.tracking with
    | false => exact ⟨_, s₁, hookOperationStep_untracked harm ht, hP⟩
    | true =>
      obtain ⟨solver, hadd⟩ := hadds ht
      exact ⟨_, s₁, hookOperationStep_tracked harm ht hadd, hP⟩

/-- The whole value is there for the little-endian loads of four and eight bytes. -/
theorem setValues_whole {a : Address} {n v : Nat} (hn : n ≤ 8) (hle : O = .le) :
    (s.setValues a ((encode O 8 v).take n)).memory = (s.write a n v).memory := by
  subst hle
  unfold PCodeState.write encode
  rw [take_encodeLE hn]

/-- An empty slice is enough where memory holds the value already. -/
theorem setValues_empty_iff {a : Address} {n v : Nat} :
    (s.setValues a ((encode O 8 v).take 0)).memory = (s.write a n v).memory ↔
      s.readMemory a n = v % 2 ^ (8 * n) := by
  have hnil : s.memory.write a [] = s.memory := Store.write_eq_self_iff.mpr rfl
  rw [List.take_zero, PCodeState.memory_setValues, hnil, PCodeState.write,
    PCodeState.memory_setValues, eq_comm]
  exact Store.store_eq_self_iff

theorem cachedSlice_whole {n : Nat} (hle : O = .le) (hn : n = 4 ∨ n = 8) :
    cachedSlice O n = some n := by
  subst hle
  rcases hn with rfl | rfl
  · rfl
  · rfl

theorem cachedSlice_empty {n : Nat} (hn : n = 1 ∨ n = 4 ∨ n = 8)
    (hnot : ¬ (O = .le ∧ (n = 4 ∨ n = 8))) : cachedSlice O n = some 0 := by
  cases O with
  | le =>
    rcases hn with rfl | hn
    · rfl
    · exact absurd ⟨rfl, hn⟩ hnot
  | be => rcases hn with rfl | rfl | rfl <;> rfl

end CachedLoadLemmas

open CachedLoadLemmas

/-- The slice of the cached value is what the solving path writes where it is not empty, and
otherwise where memory has the value already. -/
theorem cachedLoad_agrees_iff (env : SolverEnv X)
    (hin : InRange h.addressRangeList (s.getAddress source))
    (hhit : h.cached (s.getAddress source) = some r)
    (hsize : destination.size = 1 ∨ destination.size = 2 ∨ destination.size = 4 ∨
      destination.size = 8) :
    h.LeavesSolution env s source destination r.value ↔
      (h.tracking = true → source.isConstant = false ∧ destination.isConstant = false) ∧
      (O = .le ∧ (destination.size = 4 ∨ destination.size = 8) ∨
        destination.size ≠ 2 ∧ s.readMemory (s.getAddress source) destination.size =
          r.value % 2 ^ (8 * destination.size)) := by
  have hserved : ∀ {n}, cachedSlice O destination.size = some n →
      (h.LeavesSolution env s source destination r.value ↔
        (h.tracking = true → source.isConstant = false ∧ destination.isConstant = false) ∧
        (s.setValues (s.getAddress source) ((encode O 8 r.value).take n)).memory =
          (s.write (s.getAddress source) destination.size r.value).memory) :=
    fun hslice => loadStep_iff (fun s' => s'.memory = _) (onLoad_hit hin hhit hslice)
  by_cases htwo : destination.size = 2
  · -- there is no slice of two bytes
    refine iff_of_false ?_ ?_
    · rintro ⟨h', s', hstep, -⟩
      obtain ⟨h₁, solver, harm, -, -⟩ := hookOperationStep_cases hstep
      rcases onLoad_cases harm with ⟨hout, -⟩ | ⟨-, r', n, -, hslice, -⟩ | ⟨-, hmiss, -⟩
      · exact hout hin
      · rw [htwo] at hslice
        cases O with
        | le => cases hslice
        | be => cases hslice
      · cases hhit.symm.trans hmiss
    · rintro ⟨-, ⟨-, hfour | height⟩ | ⟨hne, -⟩⟩
      · cases htwo.symm.trans hfour
      · cases htwo.symm.trans height
      · exact hne htwo
  · by_cases hwhole : O = .le ∧ (destination.size = 4 ∨ destination.size = 8)
    · have hle : destination.size ≤ 8 := by
        rcases hwhole.2 with hn | hn
        · exact hn.le.trans (by decide)
        · exact hn.le
      rw [hserved (cachedSlice_whole hwhole.1 hwhole.2)]
      exact and_congr_right fun _ => iff_of_true (setValues_whole hle hwhole.1) (.inl hwhole)
    · rw [hserved (cachedSlice_empty (hsize.imp_right fun h => h.resolve_left htwo) hwhole),
        setValues_empty_iff]
      refine and_congr_right fun _ => ?_
      constructor
      · exact fun hread => .inr ⟨htwo, hread⟩
      · exact fun hor => (hor.resolve_left hwhole).2

/-! ## A load of one byte -/

/-- The address 16 is cached, with the value 1. -/
def cachedOne : DummyPeripheral termApi :=
  { (new : DummyPeripheral termApi) with
    addressRangeList := [(0, 0xff)]
    solvingResultsCacheEnable := true
    solvingResults := Function.update (fun _ => none) 16 (some ⟨16, 1, 1⟩) }

/-- Memory is zero, and `r0` points to the address 16. -/
def pointerState (O : Order) : PCodeState O :=
  PCodeState.setValue { spaces := fun _ _ => 0, programCounter := 0 } (.register "r0" 0 4) 16

theorem cachedLoad_agrees_word :
    cachedOne.LeavesSolution (.preferring termApi fun _ => 0) (pointerState .le)
      (.register "r0" 0 4) (.register "r1" 4 4) 1 :=
  (cachedLoad_agrees_iff (h := cachedOne) (r := ⟨16, 1, 1⟩) _ (by decide +kernel)
    (by decide +kernel) (by decide)).mpr (by decide +kernel)

/-- The byte is not written. -/
theorem not_cachedLoad_agrees_byte :
    ¬ cachedOne.LeavesSolution (.preferring termApi fun _ => 0) (pointerState .le)
      (.register "r0" 0 4) (.register "r1" 4 1) 1 := by
  have hserved := onLoad_hit (h := cachedOne) (s := pointerState .le) (r := ⟨16, 1, 1⟩) (n := 0)
    (by decide +kernel : InRange _ ((pointerState .le).getAddress (.register "r0" 0 4)))
    (by decide +kernel) (by rfl : cachedSlice .le (Operand.register "r1" 4 1).size = some 0)
  unfold LeavesSolution
  rw [loadStep_iff (fun s' => s'.memory = _) hserved, setValues_empty_iff]
  decide +kernel

end DummyPeripheral

end FuguexPeripheral
