import FuguexPeripheral.Bypass.Shadow
import FuguexPeripheral.Bypass.Solutions
import FuguexPeripheral.Bypass.Term

/-!
# Widths of reads

A read should give an expression as wide as the operand, for the bytes last written there. The
variable list has no sizes, so it does while every key is used for the same bytes.

Results:
1. `means_iff`, `exec_of_target`: when the expression of a result is what the emulator writes.
2. `Follows.step`, `Follows.run`: the shadow follows the calls that it allows.
3. `reads_last_written`: an operand that the shadow knows reads as the bytes last written there.
4. `bits_read_iff`: the width of a read.
5. `not_reads_last_written`: two bytes are written, one is read.
-/

namespace FuguexPeripheral

open ByteStore Fallible Variables PCodeOp ConstraintSolver Shadow Runs

/-! ## What a sequence of calls writes -/

namespace PCodeOp

variable {O : Order}

/-- The value that an operation other than a load writes. -/
def resultValue (s : PCodeState O) : PCodeOp → Nat
  | .copy source _ | .store source _ => s.value source
  | .subpiece _ operand amount => s.value operand >>> (8 * s.value amount)
  | .binary op _ a b => op.eval (8 * a.size) (s.value a) (s.value b)
  | .unary op result a => op.eval (8 * a.size) (8 * result.size) (s.value a)
  | _ => 0

/-- The value that `add_pcode` makes of the values that it reads. It is not the one that is written
where `Means` fails. -/
def symValue : PCodeOp → List Nat → Nat
  | .store _ _, [x] => x
  | .subpiece result operand (.constant value _), [x] => x % 2 ^ subpieceBits operand result value
  | op, values => op.compute BinOp.symMeaning values

/-- The sizes for which the expression of the result is as wide as what is written. -/
def Sized : PCodeOp → Prop
  | .load source destination => destination.size ≤ source.size
  | .subpiece result operand (.constant value _) =>
    subpieceBits operand result value = 8 * result.size ∧ result.size ≤ operand.size
  | .subpiece _ _ _ => False
  | op => op.WellSized

instance : ∀ op, Decidable (Sized op)
  | .load source destination => inferInstanceAs (Decidable (destination.size ≤ source.size))
  | .subpiece result operand (.constant value _) => inferInstanceAs (Decidable
      (subpieceBits operand result value = 8 * result.size ∧ result.size ≤ operand.size))
  | .subpiece _ _ (.address _ _) | .subpiece _ _ (.register _ _ _)
  | .subpiece _ _ (.variable _ _ _) => inferInstanceAs (Decidable False)
  | .copy source destination => inferInstanceAs (Decidable (WellSized (.copy source destination)))
  | .binary op result a b => inferInstanceAs (Decidable (WellSized (.binary op result a b)))
  | .unary op result a => inferInstanceAs (Decidable (WellSized (.unary op result a)))
  | .store _ _ | .branch _ | .cbranch _ _ | .ibranch _ | .call _ | .icall _ | .ret _ | .skip
  | .other _ => inferInstanceAs (Decidable True)

/-- The solver means by an operation what the operation does: the bits that it keeps of the operand
of a Subpiece are those that should be kept, and a disjunction is one of Booleans. -/
def Means (s : PCodeState O) : PCodeOp → Prop
  | .subpiece result operand amount =>
    s.value operand % 2 ^ (8 * result.size) =
      (s.value operand >>> (8 * s.value amount)) % 2 ^ (8 * result.size)
  | .binary .boolOr _ a b => s.value a < 2 ∧ s.value b < 2
  | _ => True

end PCodeOp

namespace ConstraintSolver

variable {X : SymExprApi} {O : Order}

/-- The value that a call writes in a model, where the operations have the given values. A load
writes the new variable of its pointer. -/
def writtenValue (value : PCodeState O → PCodeOp → Nat) (σ : Model) (c : ConstraintSolver X)
    (op : PCodeOp) (s : PCodeState O) : Nat :=
  match op with
  | .load source _ =>
    (genVariableName source).elim 0 fun key => X.eval σ (c.freshVar key source)
  | op => value s op

/-- The writes after a call. Its inputs have the bytes that were written to them, and where nothing
was, those of the state of the call. -/
def logCall (value : PCodeState O → PCodeOp → Nat) (σ : Model) (log : List (Operand × Nat))
    (x : ConstraintSolver X × (PCodeState O × PCodeOp)) : List (Operand × Nat) :=
  match x.2.2.target x.2.1 with
  | some t => log ++ [(t, x.1.writtenValue value σ x.2.2 (x.2.1.put log))]
  | none => log

/-- The writes of a sequence of calls. -/
def writeLog (σ : Model) (tr : List (ConstraintSolver X × (PCodeState O × PCodeOp))) :
    List (Operand × Nat) :=
  tr.foldl (logCall resultValue σ) []

/-- In every model the solver means by each call what the operation does, after the writes so
far. -/
def MeansAll : (Model → List (Operand × Nat)) →
    List (ConstraintSolver X × (PCodeState O × PCodeOp)) → Prop
  | _, [] => True
  | log, x :: tr => (∀ σ, x.2.2.Means (x.2.1.put (log σ))) ∧
      MeansAll (fun σ => logCall resultValue σ (log σ) x) tr

/-- The operand reads as an expression of its width, which denotes the bytes last written there;
where nothing was, those of the state. -/
def ReadsLastWritten (c : ConstraintSolver X) (s : PCodeState O) (o : Operand)
    (log : Model → List (Operand × Nat)) : Prop :=
  ∃ e, c.readExpr s o = .ok e ∧ X.bits e = 8 * o.size ∧
    ∀ σ, X.eval σ e = (s.put (log σ)).value o

end ConstraintSolver

namespace Shadow

variable {O : Order}

/-- The shadow after a sequence of calls. -/
def after (calls : List (PCodeState O × PCodeOp)) : Shadow :=
  calls.foldl step empty

/-- The sizes fit, and the inputs are known. -/
def Allows (vars : String → Option Nat) (sh : Shadow) (call : PCodeState O × PCodeOp) : Prop :=
  call.2.Sized ∧ KnowsAll vars call.1 sh call.2.inputs

instance (vars : String → Option Nat) (sh : Shadow) (call : PCodeState O × PCodeOp) :
    Decidable (sh.Allows vars call) :=
  inferInstanceAs (Decidable (call.2.Sized ∧ KnowsAll vars call.1 sh call.2.inputs))

/-- Each call is allowed after the ones before it. -/
def AllowsAll (vars : String → Option Nat) : Shadow → List (PCodeState O × PCodeOp) → Prop
  | _, [] => True
  | sh, x :: calls => sh.Allows vars x ∧ AllowsAll vars (sh.step x) calls

instance decidableAllowsAll (vars : String → Option Nat) :
    ∀ sh (calls : List (PCodeState O × PCodeOp)), Decidable (AllowsAll vars sh calls)
  | _, [] => inferInstanceAs (Decidable True)
  | sh, x :: calls =>
    @instDecidableAnd _ _ inferInstance (decidableAllowsAll vars (sh.step x) calls)

end Shadow

/-! ## Calls -/

section Calls

variable {X : SymExprApi} {O : Order} {vars : String → Option Nat}
  {log : Model → List (Operand × Nat)} {sh : Shadow} {c c' : ConstraintSolver X}
  {s : PCodeState O} {op : PCodeOp} {t r : Operand} {es : List X.Expr}

namespace WidthsLemmas

theorem bits_freshVar {key : String} (c : ConstraintSolver X) (o : Operand) :
    X.bits (c.freshVar key o) = 8 * o.size := by
  unfold freshVar
  cases c.varList key with
  | some v => exact X.bits_ivar _
  | none => exact X.bits_ivar _

/-- What an operation makes of expressions for its inputs is an expression for its result. -/
theorem combine_stands (hload : ∀ source destination, op ≠ .load source destination)
    (htarget : op.target s = some t) (hsized : op.Sized)
    (hreads : List.Forall₂ (Stands X log s) op.inputs es) :
    X.bits (op.combine X es) = 8 * t.size ∧
      ∀ σ, X.eval σ (op.combine X es) =
        op.symValue (op.inputs.map (s.put (log σ)).value) % 2 ^ (8 * t.size) := by
  cases op with
  | load source destination => exact absurd rfl (hload source destination)
  | copy source destination =>
    have hout : (PCodeOp.copy source destination).output = some t := htarget
    exact Simulates.combine_straightLine rfl hout hsized hreads
  | binary op result a b =>
    have hout : (PCodeOp.binary op result a b).output = some t := htarget
    exact Simulates.combine_straightLine rfl hout hsized hreads
  | unary op result a =>
    have hout : (PCodeOp.unary op result a).output = some t := htarget
    exact Simulates.combine_straightLine rfl hout hsized hreads
  | store source destination =>
    cases htarget
    obtain - | ⟨⟨hbits, heval⟩, - | _⟩ := hreads
    refine ⟨hbits, fun σ => ?_⟩
    exact (heval σ).trans (Nat.mod_eq_of_lt (PCodeState.value_lt _ source)).symm
  | subpiece result a amount =>
    cases htarget
    obtain - | ⟨⟨hbits, heval⟩, - | _⟩ := hreads
    cases amount with
    | constant value size =>
      obtain ⟨hwidth, hle⟩ : subpieceBits a t value = 8 * t.size ∧ t.size ≤ a.size := hsized
      have hfits := Nat.mul_le_mul_left 8 hle
      rw [← hwidth, ← hbits] at hfits
      refine ⟨(X.bits_extract (Nat.zero_le _) hfits).trans ?_, fun σ => ?_⟩
      · rw [Nat.sub_zero, hwidth]
      · refine (X.eval_extract (Nat.zero_le _) hfits).trans ?_
        rw [heval, pow_zero, Nat.div_one, Nat.sub_zero, ← hwidth]
        exact (Nat.mod_mod _ _).symm
    | address | register | «variable» => exact hsized.elim
  | branch | cbranch | ibranch | call | icall | ret | skip | other => cases htarget

/-- A disjunction is bitwise on Booleans only. -/
theorem or_eq_ofBool_iff {x y : Nat} :
    ofBool (x != 0 || y != 0) = x ||| y ↔ x < 2 ∧ y < 2 := by
  constructor
  · intro h
    have hle : x ||| y ≤ 1 := h ▸ Bool.toNat_le _
    have hx : x ≤ x ||| y := Nat.left_le_or
    have hy : y ≤ x ||| y := Nat.right_le_or
    omega
  · rintro ⟨hx, hy⟩
    interval_cases x <;> interval_cases y <;> rfl

/-- `Means` is exact: it holds where the expression of the result is the value that is written. -/
theorem means_iff (hload : ∀ source destination, op ≠ .load source destination)
    (htarget : op.target s = some t) (hsized : op.Sized) (s' : PCodeState O) :
    op.Means s' ↔ op.resultValue s' % 2 ^ (8 * t.size) =
      op.symValue (op.inputs.map s'.value) % 2 ^ (8 * t.size) := by
  cases op with
  | load source destination => exact absurd rfl (hload source destination)
  | copy | store | unary => exact iff_of_true trivial rfl
  | binary op result a b =>
    cases htarget
    by_cases hop : op = .boolOr
    · subst hop
      obtain ⟨⟨hsame, hlogical⟩, hresult⟩ := hsized
      have ha := PCodeState.value_lt s' a
      have hb := PCodeState.value_lt s' b
      have hwidth : 8 * a.size = 8 := hlogical rfl
      have hor : s'.value a ||| s'.value b < 2 ^ 8 := by
        refine Nat.or_lt_two_pow (hwidth ▸ ha) ?_
        have hb' : 8 * b.size = 8 := by
          rcases hsame with hshift | hsame
          · cases hshift
          · exact hsame ▸ hwidth
        exact hb' ▸ hb
      have hbool : ofBool (s'.value a != 0 || s'.value b != 0) < 2 ^ 8 :=
        Nat.lt_of_le_of_lt (Bool.toNat_le _) (by decide)
      have hresult' : 8 * t.size = 8 := hresult
      rw [hresult']
      show _ ↔ ofBool (s'.value a != 0 || s'.value b != 0) % 2 ^ 8 =
        (s'.value a ||| s'.value b) % 2 ^ 8
      rw [Nat.mod_eq_of_lt hbool, Nat.mod_eq_of_lt hor, or_eq_ofBool_iff]
      rfl
    · have hmeans : PCodeOp.Means s' (.binary op t a b) := by
        cases op with
        | boolOr => exact absurd rfl hop
        | intAnd | boolAnd | intOr | boolXor | intXor | intLeftShift | intRightShift
        | intSRightShift | intEq | intNotEq | intSLess | intLess | intSub | intAdd | intCarry
        | intSCarry => trivial
      refine iff_of_true hmeans ?_
      show op.eval _ _ _ % _ = op.symMeaning _ _ _ % _
      rw [BinOp.symMeaning_eq_eval hop]
  | subpiece result a amount =>
    cases htarget
    cases amount with
    | constant value size =>
      obtain ⟨hwidth, -⟩ : subpieceBits a t value = 8 * t.size ∧ t.size ≤ a.size := hsized
      show _ = _ ↔ _ = s'.value a % 2 ^ subpieceBits a t value % 2 ^ (8 * t.size)
      rw [hwidth, Nat.mod_mod]
      exact eq_comm
    | address | register | «variable» => exact hsized.elim
  | branch | cbranch | ibranch | call | icall | ret | skip | other => cases htarget

/-- What is written is what the emulator writes. -/
theorem exec_of_target (hload : ∀ source destination, op ≠ .load source destination)
    (htarget : op.target s = some t) : op.exec s = s.setValue t (op.resultValue s) := by
  cases op with
  | load source destination => exact absurd rfl (hload source destination)
  | store | copy | binary | unary | subpiece =>
    cases htarget
    rfl
  | branch | cbranch | ibranch | call | icall | ret | skip | other => cases htarget

theorem writtenValue_of_not_load (hload : ∀ source destination, op ≠ .load source destination)
    (value : PCodeState O → PCodeOp → Nat) (σ : Model) (c : ConstraintSolver X)
    (s : PCodeState O) : c.writtenValue value σ op s = value s op := by
  cases op with
  | load source destination => exact absurd rfl (hload source destination)
  | store | copy | binary | unary | subpiece | branch | cbranch | ibranch | call | icall | ret
  | skip | other => rfl

/-- What is listed is written, or it is the pointer of a store. -/
theorem target_cases (hlisted : op.listed = some r) :
    ∃ t, op.target s = some t ∧ (t = r ∨ t.isConstant = false) := by
  cases op with
  | load | copy | binary | unary | subpiece => exact ⟨_, rfl, .inl (Option.some.inj hlisted)⟩
  | store => exact ⟨_, rfl, .inr rfl⟩
  | branch | cbranch | ibranch | call | icall | ret | skip | other => cases hlisted

theorem step_of_not_load (hload : ∀ source destination, op ≠ .load source destination)
    (htarget : op.target s = some t) (hlisted : op.listed = some r) (sh : Shadow) :
    sh.step (s, op) = ((op.inputs.foldl (capture s) sh).write t).list r
      (if genVariableName r = genVariableName t then .written t else .stale) := by
  cases op with
  | load source destination => exact absurd rfl (hload source destination)
  | store | copy | binary | unary | subpiece =>
    cases htarget
    cases hlisted
    rfl
  | branch | cbranch | ibranch | call | icall | ret | skip | other => cases hlisted

/-- The entry of the result is for what is written. -/
theorem eq_of_denotes {o : Operand} {s : PCodeState O}
    (h : (if genVariableName r = genVariableName t then Entry.written t else .stale).Denotes s o) :
    t = o := by
  split at h
  next => exact h
  next => exact h.elim

theorem logCall_eq (htarget : op.target s = some t) (value : PCodeState O → PCodeOp → Nat)
    (σ : Model) (log : List (Operand × Nat)) (c : ConstraintSolver X) :
    logCall value σ log (c, (s, op)) = log ++ [(t, c.writtenValue value σ op (s.put log))] := by
  unfold logCall
  rw [htarget]

/-- The expression that a call lists has the given value of its operation. -/
def Interprets (value : PCodeState O → PCodeOp → Nat) (log : Model → List (Operand × Nat))
    (s : PCodeState O) (op : PCodeOp) : Prop :=
  ∀ σ t, (∀ source destination, op ≠ .load source destination) → op.target s = some t →
    value (s.put (log σ)) op % 2 ^ (8 * t.size) =
      op.symValue (op.inputs.map (s.put (log σ)).value) % 2 ^ (8 * t.size)

def InterpretsAll (value : PCodeState O → PCodeOp → Nat) : (Model → List (Operand × Nat)) →
    List (ConstraintSolver X × (PCodeState O × PCodeOp)) → Prop
  | _, [] => True
  | log, x :: tr => Interprets value log x.2.1 x.2.2 ∧
      InterpretsAll value (fun σ => logCall value σ (log σ) x) tr

theorem interprets_resultValue {tr : List (ConstraintSolver X × (PCodeState O × PCodeOp))}
    (hallows : AllowsAll vars sh (tr.map Prod.snd)) (hmeans : MeansAll log tr) :
    InterpretsAll resultValue log tr := by
  induction tr generalizing log sh with
  | nil => trivial
  | cons x tr ih =>
    refine ⟨fun σ t hload htarget => ?_, ih hallows.2 hmeans.2⟩
    exact (means_iff hload htarget hallows.1.1 _).mp (hmeans.1 σ)

theorem interprets_symValue (log : Model → List (Operand × Nat))
    (tr : List (ConstraintSolver X × (PCodeState O × PCodeOp))) :
    InterpretsAll (fun s op => op.symValue (op.inputs.map s.value)) log tr := by
  induction tr generalizing log with
  | nil => trivial
  | cons x tr ih => exact ⟨fun _ _ _ _ => rfl, ih _⟩

end WidthsLemmas

open WidthsLemmas

namespace Shadow.Follows

/-- The shadow follows a call that it allows. -/
theorem step {value : PCodeState O → PCodeOp → Nat} (hfollows : Follows O vars log sh c)
    (hadd : c.addPcode op s = .ok c') (hallows : sh.Allows vars (s, op))
    (hvalue : Interprets value log s op) :
    Follows O vars (fun σ => logCall value σ (log σ) (c, (s, op))) (sh.step (s, op)) c' := by
  obtain ⟨hsized, hknows⟩ := hallows
  rcases addPcode_cases hadd with ⟨hnone, rfl⟩ |
    ⟨source, destination, key, c₁, c₂, rfl, hsource, hins, hlist, hdefaults, hresult⟩ |
    ⟨r, es, c₁, hload, hlisted, hread, hresult⟩
  · cases op with
    | load | store | copy | binary | unary | subpiece => cases hnone
    | branch | cbranch | ibranch | call | icall | ret | skip | other => exact hfollows
  · have hforgot : Follows O vars log (sh.list source .stale) c₂ :=
      (hfollows.forget hins).congr hlist hdefaults
    obtain ⟨key', -, hdestination, -, -⟩ := varListInsert_cases (insertResult_cases hresult)
    have hwidth : 8 * destination.size ≤ X.bits (c.freshVar key source) :=
      bits_freshVar c source ▸ Nat.mul_le_mul_left 8 hsized
    have hwritten := hforgot.write (isConstant_of_key hdestination) (X.bits_extractLow hwidth)
      (fun σ => X.eval_extractLow hwidth) (fun s o => eq_of_denotes (r := destination)) hresult
    have hfresh : ∀ σ, c.writtenValue value σ (.load source destination) (s.put (log σ)) =
        X.eval σ (c.freshVar key source) := by
      intro σ
      unfold writtenValue
      dsimp only
      rw [hsource]
      rfl
    have hlog : ∀ σ, logCall value σ (log σ) (c, (s, .load source destination)) =
        log σ ++ [(destination, X.eval σ (c.freshVar key source))] := by
      intro σ
      rw [← hfresh σ]
      exact logCall_eq rfl value σ (log σ) c
    simp only [hlog]
    exact hwritten
  · obtain ⟨t, htarget, ht⟩ := target_cases (s := s) hlisted
    obtain ⟨key, -, hr, -, -⟩ := varListInsert_cases (insertResult_cases hresult)
    have hconst : t.isConstant = false := by
      rcases ht with rfl | ht
      · exact isConstant_of_key hr
      · exact ht
    obtain ⟨hreads, hread⟩ := hfollows.readAll hknows hread
    obtain ⟨hbits, heval⟩ := combine_stands hload htarget hsized hreads
    have hwritten := hread.write hconst hbits
      (fun σ => (heval σ).trans (hvalue σ t hload htarget).symm)
      (fun s o => eq_of_denotes (r := r)) hresult
    rw [step_of_not_load hload htarget hlisted]
    simp only [logCall_eq htarget, writtenValue_of_not_load hload]
    exact hwritten

/-- The shadow follows a sequence of calls that it allows. -/
theorem run {value : PCodeState O → PCodeOp → Nat}
    {tr : List (ConstraintSolver X × (PCodeState O × PCodeOp))}
    (hrun : Runs.Run AddStep c tr c') (hfollows : Follows O vars log sh c)
    (hallows : AllowsAll vars sh (tr.map Prod.snd)) (hvalue : InterpretsAll value log tr) :
    Follows O vars (fun σ => tr.foldl (logCall value σ) (log σ))
      ((tr.map Prod.snd).foldl Shadow.step sh) c' := by
  induction hrun generalizing log sh with
  | nil => exact hfollows
  | cons hstep _ ih => exact ih (step hfollows hstep hallows.1 hvalue.1) hallows.2 hvalue.2

/-- Before the first call nothing is listed and nothing is written. -/
theorem new (vars : String → Option Nat) :
    Follows O vars (fun _ => []) .empty
      ((ConstraintSolver.new : ConstraintSolver X).setDefaultVariables vars) := by
  refine ⟨rfl, fun _ => iff_of_true rfl rfl, ?_, fun _ _ _ _ => rfl⟩
  intro key entry v hentry
  cases hentry

end Shadow.Follows

/-- After a sequence of calls that the shadow allows and that the solver gives their meaning, an
operand that the shadow knows reads as an expression of its width, which denotes the bytes last
written there. -/
theorem ConstraintSolver.reads_last_written {o : Operand}
    {tr : List (ConstraintSolver X × (PCodeState O × PCodeOp))} (hbuilt : Built vars tr c)
    (hallows : AllowsAll vars .empty (tr.map Prod.snd)) (hmeans : MeansAll (fun _ => []) tr)
    (hknows : (Shadow.after (tr.map Prod.snd)).Knows vars s o) :
    c.ReadsLastWritten s o fun σ => writeLog σ tr := by
  have hfollows := Follows.run hbuilt (Follows.new vars) hallows
    (interprets_resultValue hallows hmeans)
  obtain ⟨e, c', hread, ⟨hbits, heval⟩, -⟩ := hfollows.read hknows
  exact ⟨e, readExpr_of_read hread, hbits, heval⟩

/-- The width of a read is that of the last write under the key. -/
theorem ConstraintSolver.bits_read_iff {o x : Operand} {key : String} {e : X.Expr}
    {tr : List (ConstraintSolver X × (PCodeState O × PCodeOp))} (hbuilt : Built vars tr c)
    (hallows : AllowsAll vars .empty (tr.map Prod.snd)) (hkey : genVariableName o = some key)
    (hentry : (Shadow.after (tr.map Prod.snd)).entry key = some (.written x))
    (hread : c.readExpr s o = .ok e) : X.bits e = 8 * o.size ↔ x.size = o.size := by
  have hfollows := Follows.run hbuilt (Follows.new vars) hallows (interprets_symValue _ tr)
  obtain ⟨v, hv⟩ := Option.ne_none_iff_exists'.mp fun hnone =>
    Option.some_ne_none _ (hentry.symm.trans ((hfollows.listed key).mpr hnone))
  have hbits := (hfollows.current key _ v hentry hv s x rfl).1
  cases (readExpr_listed hkey hv).symm.trans hread
  rw [hbits]
  exact Nat.mul_right_inj (by decide)

end Calls

/-! ## Two bytes and one -/

namespace WidthsLemmas

/-- A temporary. -/
def temporary (size : Nat) : Operand :=
  .variable (.named "unique") 0 size

/-- Two bytes are copied to the temporary, and added to themselves. -/
def calls : List (PCodeState .le × PCodeOp) :=
  [({ spaces := fun _ _ => 0, programCounter := 0 }, .copy (.constant 0x1234 2) (temporary 2)),
    ({ spaces := fun _ _ => 0, programCounter := 4 },
      .binary .intAdd (.register "r1" 4 2) (temporary 2) (temporary 2))]

/-- The solver after the calls. -/
def traceCalls : List (ConstraintSolver termApi × (PCodeState .le × PCodeOp)) ×
    ConstraintSolver termApi :=
  tracePartial (fun c x => c.addPcode x.2 x.1) (new.setDefaultVariables fun _ => none) calls

theorem run_traceCalls : Built (fun _ => none) traceCalls.1 traceCalls.2 :=
  run_tracePartial _ _ calls

def endState : PCodeState .le :=
  { spaces := fun _ _ => 0, programCounter := 8 }

end WidthsLemmas

namespace ConstraintSolver

open WidthsLemmas

/-- The sum is two bytes wide. -/
theorem reads_last_written_sum :
    traceCalls.2.ReadsLastWritten endState (.register "r1" 4 2) fun σ => writeLog σ traceCalls.1 :=
  reads_last_written run_traceCalls (by decide) ⟨fun _ => trivial, fun _ => trivial, trivial⟩
    (by decide)

/-- One byte of the temporary reads as both. -/
theorem not_reads_last_written :
    Built (fun _ => none) traceCalls.1 traceCalls.2 ∧
      ¬ traceCalls.2.ReadsLastWritten endState (temporary 1) fun σ => writeLog σ traceCalls.1 := by
  refine ⟨run_traceCalls, ?_⟩
  rintro ⟨e, hread, hbits, -⟩
  have hread' : traceCalls.2.readExpr endState (temporary 1) = .ok (Term.val 0x1234 16) := by rfl
  cases hread'.symm.trans hread
  exact absurd hbits (by decide)

end ConstraintSolver

end FuguexPeripheral
