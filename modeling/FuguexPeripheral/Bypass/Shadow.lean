import FuguexPeripheral.Bypass.Reads
import FuguexPeripheral.Bypass.Simulation

/-!
# What the listed expressions stand for

The variable list has one expression for each key, at whatever size it was inserted. The shadow
of a sequence of calls says which bytes it stands for, and the log of the writes says what these
bytes are in a model.

Results:
1. `Follows.read`, `Follows.readAll`: operands that the shadow knows read as their bytes.
2. `Follows.write`, `Follows.forget`: insertions.
-/

namespace FuguexPeripheral

open ByteStore Fallible Variables PCodeOp

/-! ## Writes -/

/-- The state with the writes of a log, in their order. -/
def PCodeState.put {O : Order} (s : PCodeState O) (log : List (Operand × Nat)) : PCodeState O :=
  log.foldl (fun s w => s.setValue w.1 w.2) s

theorem PCodeState.put_concat {O : Order} (s : PCodeState O) (log : List (Operand × Nat))
    (o : Operand) (v : Nat) : s.put (log ++ [(o, v)]) = (s.put log).setValue o v := by
  unfold put
  rw [List.foldl_append]
  rfl

/-- The operand that an operation writes. A store writes at the address that its pointer holds. -/
def PCodeOp.target {O : Order} (s : PCodeState O) : PCodeOp → Option Operand
  | .load _ destination | .copy _ destination => some destination
  | .store source destination => some (.address (s.getAddress destination) source.size)
  | .binary _ result _ _ | .unary _ result _ | .subpiece result _ _ => some result
  | _ => none

/-! ## The shadow -/

/-- What the expression under a key stands for: an operand since it was written, an operand that
was not written and its value, or nothing any more. -/
inductive Entry
  | written (o : Operand)
  | captured (o : Operand) (value : Nat)
  | stale
  deriving DecidableEq, Repr

namespace Entry

variable {O : Order}

/-- A write to `t` changes the operands that overlap it. -/
def spoil (t : Operand) : Entry → Entry
  | .written o => if t.NoOverlap o then .written o else .stale
  | .captured o value => if t.NoOverlap o then .captured o value else .stale
  | .stale => .stale

/-- The entry is for the operand, in the state. -/
def Denotes (s : PCodeState O) (o : Operand) : Entry → Prop
  | .written x => x = o
  | .captured x value => x = o ∧ s.value o = value
  | .stale => False

instance (s : PCodeState O) (o : Operand) : ∀ entry : Entry, Decidable (entry.Denotes s o)
  | .written x => inferInstanceAs (Decidable (x = o))
  | .captured x value => inferInstanceAs (Decidable (x = o ∧ s.value o = value))
  | .stale => inferInstanceAs (Decidable False)

theorem denotes_of_spoil {s : PCodeState O} {o t : Operand} {entry : Entry}
    (h : (entry.spoil t).Denotes s o) : entry.Denotes s o ∧ t.NoOverlap o := by
  cases entry with
  | written x =>
    by_cases hno : t.NoOverlap x
    · rw [spoil, if_pos hno] at h
      cases h
      exact ⟨rfl, hno⟩
    · rw [spoil, if_neg hno] at h
      cases h
  | captured x value =>
    by_cases hno : t.NoOverlap x
    · rw [spoil, if_pos hno] at h
      obtain ⟨rfl, hvalue⟩ := h
      exact ⟨⟨rfl, hvalue⟩, hno⟩
    · rw [spoil, if_neg hno] at h
      cases h
  | stale => cases h

end Entry

/-- An entry for each listed key, and the operands that were written. -/
structure Shadow where
  entry : String → Option Entry
  touched : List Operand

namespace Shadow

variable {O : Order}

def empty : Shadow :=
  { entry := fun _ => none, touched := [] }

/-- An operand is listed. -/
def list (sh : Shadow) (o : Operand) (e : Entry) : Shadow :=
  match genVariableName o with
  | some key => { sh with entry := Function.update sh.entry key (some e) }
  | none => sh

/-- An operand is written. -/
def write (sh : Shadow) (t : Operand) : Shadow :=
  { entry := fun key => (sh.entry key).map (Entry.spoil t), touched := t :: sh.touched }

/-- An operand is read: the first read lists it. -/
def capture (s : PCodeState O) (sh : Shadow) (o : Operand) : Shadow :=
  match genVariableName o with
  | some key => if (sh.entry key).isNone then sh.list o (.captured o (s.value o)) else sh
  | none => sh

/-- After a call: a load makes its pointer a new variable, the others read their inputs; then the
result is written, and listed. A store lists it under its pointer. -/
def step (sh : Shadow) (call : PCodeState O × PCodeOp) : Shadow :=
  let sh := match call.2 with
    | .load source _ => sh.list source .stale
    | op => op.inputs.foldl (capture call.1) sh
  match call.2.target call.1, call.2.listed with
  | some t, some r =>
    (sh.write t).list r (if genVariableName r = genVariableName t then .written t else .stale)
  | _, _ => sh

/-- The value that the solver captures an operand with: its default, or its first byte. -/
def firstValue (vars : String → Option Nat) (s : PCodeState O) (key : String) (o : Operand) : Nat :=
  match vars key with
  | some defaultValue => defaultValue % 2 ^ 64
  | none => (s.getOperandU8 o).toNat

/-- An operand that is not listed is captured at its value: it can be, no write touched it, and
what the solver takes for its value is its value. -/
structure Captures (vars : String → Option Nat) (sh : Shadow) (s : PCodeState O) (key : String)
    (o : Operand) : Prop where
  capturable : (vars key).isSome = true ∨
    o.isRegister = true ∧ (o.size = 1 ∨ o.size = 2 ∨ o.size = 4 ∨ o.size = 8)
  untouched : ∀ t ∈ sh.touched, t.NoOverlap o
  value : firstValue vars s key o % 2 ^ (8 * o.size) = s.value o

instance (vars : String → Option Nat) (sh : Shadow) (s : PCodeState O) (key : String)
    (o : Operand) : Decidable (sh.Captures vars s key o) :=
  decidable_of_iff
    (((vars key).isSome = true ∨
        o.isRegister = true ∧ (o.size = 1 ∨ o.size = 2 ∨ o.size = 4 ∨ o.size = 8)) ∧
      (∀ t ∈ sh.touched, t.NoOverlap o) ∧ firstValue vars s key o % 2 ^ (8 * o.size) = s.value o)
    ⟨fun h => ⟨h.1, h.2.1, h.2.2⟩, fun h => ⟨h.1, h.2, h.3⟩⟩

/-- The operand is a constant, or its entry is for it, or it has none and is captured at its
value. -/
def Knows (vars : String → Option Nat) (sh : Shadow) (s : PCodeState O) (o : Operand) : Prop :=
  ∀ key ∈ genVariableName o, (∀ entry ∈ sh.entry key, entry.Denotes s o) ∧
    (sh.entry key = none → sh.Captures vars s key o)

instance (vars : String → Option Nat) (sh : Shadow) (s : PCodeState O) (o : Operand) :
    Decidable (sh.Knows vars s o) :=
  inferInstanceAs (Decidable (∀ key ∈ genVariableName o,
    (∀ entry ∈ sh.entry key, entry.Denotes s o) ∧
      (sh.entry key = none → sh.Captures vars s key o)))

/-- The operands are known, read one after another. -/
def KnowsAll (vars : String → Option Nat) (s : PCodeState O) : Shadow → List Operand → Prop
  | _, [] => True
  | sh, o :: os => sh.Knows vars s o ∧ KnowsAll vars s (sh.capture s o) os

instance decidableKnowsAll (vars : String → Option Nat) (s : PCodeState O) :
    ∀ sh os, Decidable (KnowsAll vars s sh os)
  | _, [] => inferInstanceAs (Decidable True)
  | sh, o :: os =>
    @instDecidableAnd _ _ inferInstance (decidableKnowsAll vars s (sh.capture s o) os)

/-! ## The shadow follows the variable list -/

section Follows

variable {X : SymExprApi} {vars : String → Option Nat}
  {log : Model → List (Operand × Nat)} {sh : Shadow} {c c' : ConstraintSolver X}
  {s : PCodeState O} {o : Operand} {e : X.Expr} {key : String}

/-- The expression has the width of the operand, and in every model the value of its bytes in the
state with the writes. -/
def Stands (X : SymExprApi) (log : Model → List (Operand × Nat)) (s : PCodeState O) (o : Operand)
    (e : X.Expr) : Prop :=
  X.bits e = 8 * o.size ∧ ∀ σ, X.eval σ e = (s.put (log σ)).value o

/-- The shadow has an entry for each listed key. Its expression stands for the operands that the
entry denotes. What overlaps no operand that was written is as it is in the state. -/
structure Follows (O : Order) (vars : String → Option Nat) (log : Model → List (Operand × Nat))
    (sh : Shadow) (c : ConstraintSolver X) : Prop where
  defaults : c.defaultVariables = vars
  listed : ∀ key, sh.entry key = none ↔ c.varList key = none
  current : ∀ key entry v, sh.entry key = some entry → c.varList key = some v →
    ∀ (s : PCodeState O) o, entry.Denotes s o → Stands X log s o v.getSymExpr
  untouched : ∀ o, (∀ t ∈ sh.touched, t.NoOverlap o) →
    ∀ σ (s : PCodeState O), (s.put (log σ)).value o = s.value o

theorem list_of_key (hkey : genVariableName o = some key) (sh : Shadow) (entry : Entry) :
    sh.list o entry = { sh with entry := Function.update sh.entry key (some entry) } := by
  unfold list
  rw [hkey]

namespace Follows

/-- An expression is listed, with an entry for operands that it stands for. -/
theorem setVar {entry : Entry} {v : Variables X} (hfollows : Follows O vars log sh c)
    (hkey : genVariableName o = some key)
    (hstands : ∀ (s : PCodeState O) o', entry.Denotes s o' → Stands X log s o' v.getSymExpr) :
    Follows O vars log (sh.list o entry) (c.setVar key v) := by
  rw [list_of_key hkey]
  refine ⟨hfollows.defaults, ?_, ?_, hfollows.untouched⟩
  · intro key'
    by_cases hsame : key' = key
    · subst hsame
      rw [ConstraintSolver.varList_setVar_self]
      dsimp only
      rw [Function.update_self]
      exact iff_of_false nofun nofun
    · rw [ConstraintSolver.varList_setVar_of_ne hsame]
      dsimp only
      rw [Function.update_of_ne hsame]
      exact hfollows.listed key'
  · intro key' entry' w hentry hw
    by_cases hsame : key' = key
    · subst hsame
      rw [ConstraintSolver.varList_setVar_self] at hw
      dsimp only at hentry
      rw [Function.update_self] at hentry
      cases hw
      cases hentry
      exact hstands
    · rw [ConstraintSolver.varList_setVar_of_ne hsame] at hw
      dsimp only at hentry
      rw [Function.update_of_ne hsame] at hentry
      exact hfollows.current key' entry' w hentry hw

/-- Only the variable list and the default variables matter. -/
theorem congr (hfollows : Follows O vars log sh c) (hlist : c'.varList = c.varList)
    (hdefaults : c'.defaultVariables = c.defaultVariables) : Follows O vars log sh c' := by
  refine ⟨hdefaults.trans hfollows.defaults, ?_, ?_, hfollows.untouched⟩
  · rw [hlist]
    exact hfollows.listed
  · rw [hlist]
    exact hfollows.current

/-- The expression of a load's pointer stands for nothing. -/
theorem forget {expr : Option X.Expr} (hfollows : Follows O vars log sh c)
    (hins : c.varListInsert o expr = .ok (e, c')) : Follows O vars log (sh.list o .stale) c' := by
  obtain ⟨key, v, hkey, -, rfl⟩ := ConstraintSolver.varListInsert_cases hins
  exact setVar hfollows hkey fun _ _ hdenotes => hdenotes.elim

/-! ### Reads -/

/-- A constant stands for itself. -/
theorem stands_constant (log : Model → List (Operand × Nat)) (s : PCodeState O) (value size : Nat) :
    Stands X log s (.constant value size) (X.val value (8 * size)) := by
  refine ⟨X.bits_val _ _, fun σ => ?_⟩
  rw [X.eval_val, PCodeState.value, PCodeState.operandBytes, decode_encode]

/-- An operand that the shadow knows reads as its bytes. -/
theorem read (hfollows : Follows O vars log sh c) (hknows : sh.Knows vars s o) :
    ∃ e c', c.symexprFromOperandRead s o = .ok (e, c') ∧ Stands X log s o e ∧
      Follows O vars log (sh.capture s o) c' := by
  unfold capture
  cases hkey : genVariableName o with
  | none =>
    cases o with
    | constant value size => exact ⟨_, c, rfl, stands_constant log s value size, hfollows⟩
    | address | register | «variable» => cases hkey
  | some key =>
    obtain ⟨hlisted, hcaptures⟩ := hknows key hkey
    dsimp only
    cases hentry : sh.entry key with
    | some entry =>
      have hdenotes := hlisted entry hentry
      obtain ⟨v, hv⟩ := Option.ne_none_iff_exists'.mp fun hnone =>
        Option.some_ne_none entry (hentry.symm.trans ((hfollows.listed key).mpr hnone))
      refine ⟨v.getSymExpr, c, ?_, hfollows.current key entry v hentry hv s o hdenotes, hfollows⟩
      rw [ConstraintSolver.symexprFromOperandRead_of_key c s hkey]
      exact ConstraintSolver.varListGet_listed hkey hv
    | none =>
      obtain ⟨hcapturable, huntouched, hvalue⟩ := hcaptures hentry
      have hnone := (hfollows.listed key).mp hentry
      rw [← hfollows.defaults] at hcapturable hvalue
      obtain ⟨v, hread, hexpr⟩ := ConstraintSolver.read_capture hkey hnone hcapturable
      -- the value that is captured is the value of the operand in every model
      have hstands : ∀ (t : PCodeState O) o', (Entry.captured o (s.value o)).Denotes t o' →
          Stands X log t o' v.getSymExpr := by
        rintro t o' ⟨rfl, hsame⟩
        rw [hexpr]
        refine ⟨X.bits_val _ _, fun σ => ?_⟩
        rw [X.eval_val, hfollows.untouched o huntouched, hsame]
        exact hvalue
      exact ⟨_, _, hread, hstands s o ⟨rfl, rfl⟩, setVar hfollows hkey hstands⟩

theorem readAll {os : List Operand} {es : List X.Expr} (hfollows : Follows O vars log sh c)
    (hknows : KnowsAll vars s sh os) (hread : c.readAll s os = .ok (es, c')) :
    List.Forall₂ (Stands X log s) os es ∧ Follows O vars log (os.foldl (capture s) sh) c' := by
  induction os generalizing sh c es with
  | nil =>
    cases hread
    exact ⟨.nil, hfollows⟩
  | cons o os ih =>
    obtain ⟨e, c₁, hread₁, hstands, hfollows₁⟩ := read hfollows hknows.1
    obtain ⟨⟨e', c₂⟩, hread₁', hrest⟩ := exists_of_bind_eq_ok hread
    cases hread₁.symm.trans hread₁'
    obtain ⟨⟨es', c₃⟩, hread₂, hrest⟩ := exists_of_bind_eq_ok hrest
    cases hrest
    obtain ⟨hstands', hfollows₂⟩ := ih hfollows₁ hknows.2 hread₂
    exact ⟨.cons hstands hstands', hfollows₂⟩

/-! ### Writes -/

/-- A value is written and listed, under the key of the operand or under another. -/
theorem write {t r : Operand} {w : Model → Nat} {entry : Entry}
    (hfollows : Follows O vars log sh c) (ht : t.isConstant = false)
    (hbits : X.bits e = 8 * t.size) (heval : ∀ σ, X.eval σ e = w σ % 2 ^ (8 * t.size))
    (hentry : ∀ (s : PCodeState O) o, entry.Denotes s o → t = o)
    (hins : c.insertResult r e = .ok c') :
    Follows O vars (fun σ => log σ ++ [(t, w σ)]) ((sh.write t).list r entry) c' := by
  obtain ⟨key, v, hkey, rfl, rfl⟩ :=
    ConstraintSolver.varListInsert_cases (ConstraintSolver.insertResult_cases hins)
  have hput : ∀ σ (s : PCodeState O),
      s.put (log σ ++ [(t, w σ)]) = (s.put (log σ)).setValue t (w σ) :=
    fun σ s => PCodeState.put_concat s (log σ) t (w σ)
  have hwritten : Follows O vars (fun σ => log σ ++ [(t, w σ)]) (sh.write t) c := by
    refine ⟨hfollows.defaults, ?_, ?_, ?_⟩
    · intro key'
      exact Option.map_eq_none_iff.trans (hfollows.listed key')
    · intro key' entry' v' hentry' hv' s o hdenotes
      obtain ⟨old, hold, rfl⟩ := Option.map_eq_some_iff.mp hentry'
      obtain ⟨hdenotes, hno⟩ := Entry.denotes_of_spoil hdenotes
      obtain ⟨hbits', heval'⟩ := hfollows.current key' old v' hold hv' s o hdenotes
      refine ⟨hbits', fun σ => ?_⟩
      rw [hput, PCodeState.value_setValue_of_noOverlap hno]
      exact heval' σ
    · intro o huntouched σ s
      rw [hput, PCodeState.value_setValue_of_noOverlap (huntouched t List.mem_cons_self)]
      exact hfollows.untouched o (fun x hx => huntouched x (List.mem_cons_of_mem _ hx)) σ s
  refine setVar hwritten hkey fun s o hdenotes => ?_
  cases hentry s o hdenotes
  refine ⟨hbits, fun σ => ?_⟩
  rw [hput, PCodeState.value_setValue_same ht]
  exact heval σ

end Follows

end Follows

end Shadow

end FuguexPeripheral
