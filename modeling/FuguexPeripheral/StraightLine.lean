import FuguexPeripheral.Pcode

/-!
# Straight-line p-code

Sequences of operations without control flow and without access through a pointer:
copies and the operations that compute.

Results:
1. `execWith_straightLine`: such an operation writes its output, from the values of
   the operands it reads.
2. `value_setValue`: in a trace whose operands are apart, a write changes one operand.
3. `value_run_congr`: what a trace computes depends only on the registers, and on what
   is written before the trace.
4. `value_run_live`: of the registers, it depends on those that it reads before it writes them.
-/

namespace FuguexPeripheral

open ByteStore

/-! ## One operation -/

/-- The widths of the input and the result of an operation with one input. -/
def UnOp.Fits : UnOp → Nat → Nat → Prop
  | .intNot, w, w' => w' = w
  | .intNeg, w, w' => w' = w
  | .intZExt, w, w' => w ≤ w'
  | .intSExt, w, w' => w ≤ w'

instance : ∀ op w w', Decidable (UnOp.Fits op w w')
  | .intNot, w, w' => inferInstanceAs (Decidable (w' = w))
  | .intNeg, w, w' => inferInstanceAs (Decidable (w' = w))
  | .intZExt, w, w' => inferInstanceAs (Decidable (w ≤ w'))
  | .intSExt, w, w' => inferInstanceAs (Decidable (w ≤ w'))

instance (op : BinOp) (w w' : Nat) : Decidable (op.Fits w w') :=
  inferInstanceAs (Decidable ((op.isShift = true ∨ w = w') ∧ (op.isLogical = true → w = 8)))

namespace PCodeOp

/-- Copies and the operations that compute. -/
def isStraightLine : PCodeOp → Bool
  | .copy _ _ | .binary _ _ _ _ | .unary _ _ _ | .skip => true
  | _ => false

/-- The operands that a straight-line operation reads. -/
def reads : PCodeOp → List Operand
  | .copy source _ => [source]
  | .binary _ _ a b => [a, b]
  | .unary _ _ a => [a]
  | _ => []

/-- The operand that a straight-line operation writes. -/
def output : PCodeOp → Option Operand
  | .copy _ destination => some destination
  | .binary _ result _ _ => some result
  | .unary _ result _ => some result
  | _ => none

/-- The sizes that p-code asks for. -/
def WellSized : PCodeOp → Prop
  | .copy source destination => source.size = destination.size
  | .binary op result a b =>
    op.Fits (8 * a.size) (8 * b.size) ∧ 8 * result.size = op.resultBits (8 * a.size)
  | .unary op result a => op.Fits (8 * a.size) (8 * result.size)
  | _ => True

instance : ∀ op, Decidable (WellSized op)
  | .copy source destination => inferInstanceAs (Decidable (source.size = destination.size))
  | .binary op result a b => inferInstanceAs (Decidable
      (op.Fits (8 * a.size) (8 * b.size) ∧ 8 * result.size = op.resultBits (8 * a.size)))
  | .unary op result a => inferInstanceAs (Decidable (op.Fits (8 * a.size) (8 * result.size)))
  | .load _ _ | .store _ _ | .branch _ | .cbranch _ _ | .ibranch _ | .call _ | .icall _ | .ret _
  | .subpiece _ _ _ | .skip | .other _ => inferInstanceAs (Decidable True)

/-- The value that a straight-line operation writes, from the values it reads. -/
def compute (meaning : BinOp → Nat → Nat → Nat → Nat) : PCodeOp → List Nat → Nat
  | .copy _ _, [x] => x
  | .binary op _ a _, [x, y] => meaning op (8 * a.size) x y
  | .unary op result a, [x] => op.eval (8 * a.size) (8 * result.size) x
  | _, _ => 0

/-- Only `Skip` has no output. -/
theorem eq_skip {op : PCodeOp} (hop : op.isStraightLine = true) (hout : op.output = none) :
    op = .skip := by
  cases op with
  | skip => rfl
  | copy | binary | unary => cases hout
  | load | store | branch | cbranch | ibranch | call | icall | ret | subpiece | other => cases hop

variable {O : Order} {meaning : BinOp → Nat → Nat → Nat → Nat}

/-- A straight-line operation writes its output. -/
theorem execWith_straightLine {op : PCodeOp} (hop : op.isStraightLine = true)
    (s : PCodeState O) :
    op.execWith meaning s =
      match op.output with
      | some r => s.setValue r (op.compute meaning (op.reads.map s.value))
      | none => s := by
  cases op with
  | copy | binary | unary | skip => rfl
  | load | store | branch | cbranch | ibranch | call | icall | ret | subpiece | other => cases hop

/-- The states that a sequence of operations goes through. -/
def runWith (meaning : BinOp → Nat → Nat → Nat → Nat) (ops : List PCodeOp) (s : PCodeState O) :
    PCodeState O :=
  ops.foldl (fun s op => op.execWith meaning s) s

end PCodeOp

open PCodeOp

/-! ## Operands that are apart -/

/-- Different operands of the list do not overlap. -/
def Apart (operands : List Operand) : Prop :=
  ∀ o ∈ operands, ∀ o' ∈ operands, o ≠ o' → o.NoOverlap o'

section Apart

variable {O : Order} {operands : List Operand} {s t : PCodeState O} {o o' : Operand} {v : Nat}

theorem value_setValue (hap : Apart operands) (ho : o ∈ operands) (ho' : o' ∈ operands)
    (hc : o.isConstant = false) :
    (s.setValue o v).value o' = if o = o' then v % 2 ^ (8 * o.size) else s.value o' := by
  split
  next heq =>
    rw [← heq]
    exact PCodeState.value_setValue_same hc
  next hne => exact PCodeState.value_setValue_of_noOverlap (hap o ho o' ho' hne)

end Apart

/-! ## What a trace may read -/

/-- A constant, a register, or what is already written; and not hidden. -/
def Readable (hidden written : List Operand) (o : Operand) : Prop :=
  o ∉ hidden ∧ (o.isConstant = true ∨ o.isRegister = true ∨ o ∈ written)

/-- The operation is straight-line p-code over the operands, and reads what it may. -/
structure Admissible (operands hidden written : List Operand) (op : PCodeOp) : Prop where
  straight : op.isStraightLine = true
  sized : op.WellSized
  writes : ∀ r ∈ op.output, r ∈ operands ∧ r.isConstant = false
  reads : ∀ o ∈ op.reads, o ∈ operands ∧ Readable hidden written o

instance (operands hidden written : List Operand) (op : PCodeOp) :
    Decidable (Admissible operands hidden written op) :=
  decidable_of_iff
    (op.isStraightLine = true ∧ op.WellSized ∧
      (∀ r ∈ op.output, r ∈ operands ∧ r.isConstant = false) ∧
      ∀ o ∈ op.reads, o ∈ operands ∧ o ∉ hidden ∧
        (o.isConstant = true ∨ o.isRegister = true ∨ o ∈ written))
    ⟨fun h => ⟨h.1, h.2.1, h.2.2.1, h.2.2.2⟩, fun h => ⟨h.1, h.2, h.3, h.4⟩⟩

/-- A sequence of such operations, after which the operand `c` may be read. -/
def StraightLine (operands hidden : List Operand) :
    List Operand → List PCodeOp → Operand → Prop
  | written, [], c => c ∈ operands ∧ Readable hidden written c
  | written, op :: ops, c =>
    Admissible operands hidden written op ∧
      StraightLine operands hidden (op.output.toList ++ written) ops c

instance decidableStraightLine (operands hidden : List Operand) :
    ∀ written ops c, Decidable (StraightLine operands hidden written ops c)
  | written, [], c => inferInstanceAs (Decidable
      (c ∈ operands ∧ c ∉ hidden ∧ (c.isConstant = true ∨ c.isRegister = true ∨ c ∈ written)))
  | written, op :: ops, c =>
    @instDecidableAnd _ _ inferInstance
      (decidableStraightLine operands hidden (op.output.toList ++ written) ops c)

/-! ## Traces and the states they start in -/

/-- The two states hold the same in every operand that may be read. -/
def AgreeOn {O : Order} (operands hidden written : List Operand) (s t : PCodeState O) : Prop :=
  ∀ o ∈ operands, Readable hidden written o → s.value o = t.value o

section Congr

variable {O : Order} {meaning : BinOp → Nat → Nat → Nat → Nat}
  {operands hidden written : List Operand} {s t : PCodeState O}

theorem agreeOn_step {op : PCodeOp} (hap : Apart operands)
    (hop : Admissible operands hidden written op) (hagree : AgreeOn operands hidden written s t) :
    AgreeOn operands hidden (op.output.toList ++ written) (op.execWith meaning s)
      (op.execWith meaning t) := by
  have hreads : op.reads.map s.value = op.reads.map t.value :=
    List.map_congr_left fun o ho => hagree o (hop.reads o ho).1 (hop.reads o ho).2
  rw [execWith_straightLine hop.straight, execWith_straightLine hop.straight, hreads]
  cases hout : op.output with
  | none => exact hagree
  | some r =>
    obtain ⟨hr, hrc⟩ := hop.writes r hout
    intro o ho hread
    dsimp only
    rw [value_setValue hap hr ho hrc, value_setValue hap hr ho hrc]
    -- the operand is the one that was written, or has the value from before
    by_cases heq : r = o
    · rw [if_pos heq, if_pos heq]
    · rw [if_neg heq, if_neg heq]
      refine hagree o ho ⟨hread.1, ?_⟩
      rcases hread.2 with hconst | hreg | hmem
      · exact .inl hconst
      · exact .inr (.inl hreg)
      · rcases List.mem_cons.mp hmem with heq' | hmem
        · exact absurd heq'.symm heq
        · exact .inr (.inr hmem)

/-- The value that a trace leaves in `c` depends on what may be read only. -/
theorem value_run_congr {ops : List PCodeOp} {c : Operand} (hap : Apart operands)
    (hops : StraightLine operands hidden written ops c)
    (hagree : AgreeOn operands hidden written s t) :
    (runWith meaning ops s).value c = (runWith meaning ops t).value c := by
  induction ops generalizing written s t with
  | nil => exact hagree c hops.1 hops.2
  | cons op ops ih => exact ih hops.2 (agreeOn_step hap hops.1 hagree)

end Congr

/-! ## Live operands -/

/-- What a trace reads before it is written, the operand that is read after it included. -/
def liveOperands : List Operand → List PCodeOp → Operand → List Operand
  | written, [], c => if c ∈ written then [] else [c]
  | written, op :: ops, c =>
    (op.reads.filter fun o => decide (o ∉ written)) ++
      liveOperands (op.output.toList ++ written) ops c

section Live

variable {O : Order} {meaning : BinOp → Nat → Nat → Nat → Nat}
  {operands hidden written : List Operand} {s t : PCodeState O} {ops : List PCodeOp} {c : Operand}

theorem not_mem_written_of_live {o : Operand} (h : o ∈ liveOperands written ops c) :
    o ∉ written := by
  induction ops generalizing written with
  | nil =>
    unfold liveOperands at h
    split at h
    · cases h
    next hc => rwa [List.mem_singleton.mp h]
  | cons op ops ih =>
    rcases List.mem_append.mp h with hread | hlater
    · exact of_decide_eq_true (List.mem_filter.mp hread).2
    · exact fun hmem => ih hlater (List.mem_append_right _ hmem)

/-- In straight-line code only constants and registers are live at the start. -/
theorem mem_live {o : Operand} (hops : StraightLine operands hidden written ops c)
    (h : o ∈ liveOperands written ops c) :
    o ∈ operands ∧ o ∉ hidden ∧ (o.isConstant = true ∨ o.isRegister = true) := by
  have hreadable : ∀ {written}, Readable hidden written o → o ∉ written →
      o ∉ hidden ∧ (o.isConstant = true ∨ o.isRegister = true) := by
    rintro written ⟨hhidden, hconst | hreg | hmem⟩ hnot
    · exact ⟨hhidden, .inl hconst⟩
    · exact ⟨hhidden, .inr hreg⟩
    · exact absurd hmem hnot
  induction ops generalizing written with
  | nil =>
    have hnot := not_mem_written_of_live h
    unfold liveOperands at h
    split at h
    · cases h
    · rw [List.mem_singleton.mp h] at hnot hreadable ⊢
      exact ⟨hops.1, hreadable hops.2 hnot⟩
  | cons op ops ih =>
    rcases List.mem_append.mp h with hread | hlater
    · obtain ⟨hmem, hnot⟩ := List.mem_filter.mp hread
      obtain ⟨ho, hr⟩ := hops.1.reads o hmem
      exact ⟨ho, hreadable hr (of_decide_eq_true hnot)⟩
    · exact ih hops.2 hlater

/-- The value that a trace leaves in `c` depends on what is live at its start only. -/
theorem value_run_live (hap : Apart operands) (hops : StraightLine operands hidden written ops c)
    (hwritten : ∀ o ∈ operands, o ∈ written → s.value o = t.value o)
    (hlive : ∀ o ∈ liveOperands written ops c, s.value o = t.value o) :
    (runWith meaning ops s).value c = (runWith meaning ops t).value c := by
  induction ops generalizing written s t with
  | nil =>
    by_cases hc : c ∈ written
    · exact hwritten c hops.1 hc
    · exact hlive c (by simp [liveOperands, hc])
  | cons op ops ih =>
    obtain ⟨hop, hrest⟩ := hops
    have hreads : op.reads.map s.value = op.reads.map t.value := by
      refine List.map_congr_left fun o ho => ?_
      by_cases hmem : o ∈ written
      · exact hwritten o (hop.reads o ho).1 hmem
      · exact hlive o (List.mem_append_left _ (List.mem_filter.mpr ⟨ho, decide_eq_true hmem⟩))
    have hlater : ∀ o ∈ liveOperands (op.output.toList ++ written) ops c, s.value o = t.value o :=
      fun o ho => hlive o (List.mem_append_right _ ho)
    show (runWith meaning ops (op.execWith meaning s)).value c =
      (runWith meaning ops (op.execWith meaning t)).value c
    rw [execWith_straightLine hop.straight, execWith_straightLine hop.straight, hreads]
    cases hout : op.output with
    | none =>
      rw [hout] at hrest hlater
      exact ih hrest hwritten hlater
    | some r =>
      obtain ⟨hr, hrc⟩ := hop.writes r hout
      rw [hout] at hrest hlater
      -- the output is the same in both states, and nothing else changes
      refine ih hrest (fun o ho hmem => ?_) fun o ho => ?_
      · rw [value_setValue hap hr ho hrc, value_setValue hap hr ho hrc]
        by_cases heq : r = o
        · rw [if_pos heq, if_pos heq]
        · rw [if_neg heq, if_neg heq]
          exact hwritten o ho ((List.mem_cons.mp hmem).resolve_left (Ne.symm heq))
      · have hne : r ≠ o := fun heq =>
          not_mem_written_of_live ho (heq ▸ List.mem_cons_self)
        have hmem := (mem_live hrest ho).1
        rw [value_setValue hap hr hmem hrc, value_setValue hap hr hmem hrc, if_neg hne, if_neg hne]
        exact hlater o ho

end Live

end FuguexPeripheral
