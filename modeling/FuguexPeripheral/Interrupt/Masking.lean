import FuguexPeripheral.Interrupt.StackAgreement

/-!
# Masking an interrupt

`disable` sets the status to `Disabled`. Two things follow in the step:

* `has_fired()` is false, so neither stack is popped;
* `fire` is still consulted, with count `0` as for a pending interrupt, and
  `can_fire()` is not: an answer `Some(h)` pushes and branches as ever.

Results:
1. `quiet_while_disabled_iff`: a run is quiet while disabled exactly when the
   overrider itself declines at every step taken while disabled.
2. `masking_transparent_iff`: masking a stretch of steps is transparent exactly
   when none of its addresses is the return point or the handler entry that the
   wrapper waits for.
-/

namespace FuguexPeripheral.InterruptWrapper

open StackLemmas

variable {I S Op : Type*} [InterruptHandlerOverrider I S Op]

/-! ## Firing while disabled -/

/-- The step pushes onto one of the two stacks. -/
def Pushes (w : InterruptWrapper I) (x : StepInput S Op) : Prop :=
  w.handlerStack.length < (w.stepOn x).wrapper.handlerStack.length ∨
  w.returnsStack.length < (w.stepOn x).wrapper.returnsStack.length

/-- No step of the run that is taken while the status is `Disabled` branches or
pushes. -/
def QuietWhileDisabled (i : I) (nesting : Bool) (es : List (InterruptEvent S Op)) : Prop :=
  ∀ q x, (q, .step x) ∈ history i nesting es → q.status = .disabled →
    Branches q x = false ∧ ¬ Pushes q x

/-- At no step of the run that is taken while the status is `Disabled` the
overrider, given the count `0`, answers with a handler. -/
def DeclinesWhileDisabled (i : I) (nesting : Bool) (es : List (InterruptEvent S Op)) : Prop :=
  ∀ q x, (q, .step x) ∈ history i nesting es → q.status = .disabled →
    ∀ h, (InterruptHandlerOverrider.fire q.interrupt 0 x.state x.address x.operation).answer ≠
      .ok (some h)

namespace MaskingLemmas

/-- A step taken while disabled goes straight to the overrider. -/
theorem stepOn_disabled {w : InterruptWrapper I} (h : w.status = .disabled) (x : StepInput S Op) :
    w.stepOn x = w.consult x.state x.address x.operation := by
  obtain ⟨hr, hh⟩ := not_at_of_not_fired (hasFired_of_disabled h) x.address
  unfold stepOn hookArchitecturalStep
  rw [popReturn_of_not hr, if_neg (by rw [hh]; exact Bool.false_ne_true)]

theorem quiet_step_iff {w : InterruptWrapper I} (h : w.status = .disabled) (x : StepInput S Op) :
    (Branches w x = false ∧ ¬ Pushes w x) ↔
      ∀ handler, (InterruptHandlerOverrider.fire w.interrupt 0 x.state x.address x.operation).answer
        ≠ .ok (some handler) := by
  have hcount : w.triggerCount = 0 := by rw [triggerCount, h]
  unfold Branches Pushes
  rw [stepOn_disabled h, consult, hcount]
  cases hans :
    (InterruptHandlerOverrider.fire w.interrupt 0 x.state x.address x.operation).answer with
  | error e => simp
  | ok o =>
    cases o with
    | none => simp
    | some handler => simp

end MaskingLemmas

open MaskingLemmas

/-- For every overrider and every run: the steps taken while disabled neither
branch nor push exactly when the overrider declines at each of them. -/
theorem quiet_while_disabled_iff (i : I) (nesting : Bool) (es : List (InterruptEvent S Op)) :
    QuietWhileDisabled i nesting es ↔ DeclinesWhileDisabled i nesting es := by
  unfold QuietWhileDisabled DeclinesWhileDisabled
  constructor
  · intro h q x hm hd
    exact (quiet_step_iff hd x).mp (h q x hm hd)
  · intro h q x hm hd
    exact (quiet_step_iff hd x).mpr (h q x hm hd)

/-- An interrupt masked before its first step branches as soon as the overrider
answers. -/
theorem disabled_branches :
    ¬ QuietWhileDisabled (⟨[some 0x20]⟩ : AnswerQueue) true
      [.disable, .step (⟨(), 0x10, ()⟩ : StepInput Unit Unit)] := by
  intro h
  have hq := h _ ⟨(), 0x10, ()⟩ (List.mem_cons_of_mem _ List.mem_cons_self) rfl
  exact absurd hq.1 (by decide)

/-! ## Masking and the two stacks -/

/-- Every call of `fire` made during the steps answers `None`. -/
def Silent (w : InterruptWrapper I) : List (StepInput S Op) → Prop
  | [] => True
  | x :: xs => (∀ call, (w.stepOn x).call = some call → call.answer = .ok none) ∧
      Silent (w.stepOn x).wrapper xs

namespace MaskingLemmas

/-- The number of recorded addresses. -/
def depth (w : InterruptWrapper I) : Nat :=
  w.handlerStack.length + w.returnsStack.length

/-- A silent step only pops: the wrapper it leaves is the one after the return
pop, up to the overrider and the handler pop. -/
theorem silent_step {w : InterruptWrapper I} {x : StepInput S Op}
    (hs : ∀ call, (w.stepOn x).call = some call → call.answer = .ok none) :
    tracking (w.stepOn x).wrapper =
      if (w.popReturn x.address).atHandler x.address then
        ((w.popReturn x.address).status, w.handlerStack.tail, (w.popReturn x.address).returnsStack)
      else tracking (w.popReturn x.address) := by
  rcases stepOn_cases w x with ⟨hh, -, -, hw⟩ | ⟨hh, hc, i, h⟩
  · rw [hh, if_pos rfl, hw]
    rfl
  · rw [hh, if_neg Bool.false_ne_true]
    have hans : answerAt w x = .ok none := hs _ hc
    rcases h with ⟨e, he, -, -⟩ | ⟨-, -, hw⟩ | ⟨handler, he, -, -⟩
    · rw [hans] at he
      cases he
    · rw [hw]
      rfl
    · rw [hans] at he
      cases he

theorem silent_step_depth {w : InterruptWrapper I} {x : StepInput S Op}
    (hs : ∀ call, (w.stepOn x).call = some call → call.answer = .ok none) :
    depth (w.stepOn x).wrapper ≤ depth w ∧
      (w.atReturn x.address = true ∨ w.atHandler x.address = true →
        depth (w.stepOn x).wrapper < depth w) := by
  have ht := silent_step hs
  have hp := popReturn_length w x.address
  cases hr : w.atReturn x.address with
  | true =>
    rw [hr, Bool.toNat_true] at hp
    have hlt : depth (w.stepOn x).wrapper < depth w := by
      have htail : w.handlerStack.tail.length ≤ w.handlerStack.length := by simp
      unfold tracking at ht
      unfold depth
      split at ht
      · simp only [Prod.mk.injEq] at ht
        obtain ⟨-, h2, h3⟩ := ht
        rw [h2, h3]
        omega
      · simp only [Prod.mk.injEq, popReturn_handlerStack] at ht
        obtain ⟨-, h2, h3⟩ := ht
        rw [h2, h3]
        omega
    exact ⟨Nat.le_of_lt hlt, fun _ => hlt⟩
  | false =>
    rw [popReturn_of_not hr] at ht
    cases hh : w.atHandler x.address with
    | true =>
      rw [hh, if_pos rfl] at ht
      obtain ⟨-, rest, hrest⟩ := atHandler_iff.mp hh
      simp only [tracking, Prod.mk.injEq] at ht
      obtain ⟨-, h2, h3⟩ := ht
      have hlt : depth (w.stepOn x).wrapper < depth w := by
        rw [depth, depth, h2, h3, hrest]
        simp
      exact ⟨Nat.le_of_lt hlt, fun _ => hlt⟩
    | false =>
      rw [hh, if_neg Bool.false_ne_true] at ht
      simp only [tracking, Prod.mk.injEq] at ht
      obtain ⟨-, h2, h3⟩ := ht
      refine ⟨Nat.le_of_eq (by rw [depth, depth, h2, h3]), ?_⟩
      rintro (h | h) <;> cases h

theorem silent_step_still {w : InterruptWrapper I} {x : StepInput S Op}
    (hs : ∀ call, (w.stepOn x).call = some call → call.answer = .ok none)
    (hr : w.atReturn x.address = false) (hh : w.atHandler x.address = false) :
    tracking (w.stepOn x).wrapper = tracking w := by
  have ht := silent_step hs
  rw [popReturn_of_not hr] at ht
  rwa [hh, if_neg Bool.false_ne_true] at ht

theorem depth_congr {w w' : InterruptWrapper I} (h : tracking w' = tracking w) :
    depth w' = depth w := by
  simp only [tracking, Prod.mk.injEq] at h
  rw [depth, depth, h.2.1, h.2.2]

theorem silent_depth_le {w : InterruptWrapper I} {xs : List (StepInput S Op)}
    (hs : Silent w xs) : depth (stepAll w xs) ≤ depth w := by
  induction xs generalizing w with
  | nil => exact Nat.le_refl _
  | cons x xs ih => exact Nat.le_trans (ih hs.2) (silent_step_depth hs.1).1

/-- Silent steps at addresses the wrapper does not wait for change nothing, and
the first one at such an address shortens a stack for good. -/
theorem silent_run {w : InterruptWrapper I} {xs : List (StepInput S Op)} (hs : Silent w xs) :
    ((∀ x ∈ xs, w.atReturn x.address = false ∧ w.atHandler x.address = false) →
      tracking (stepAll w xs) = tracking w) ∧
    (¬ (∀ x ∈ xs, w.atReturn x.address = false ∧ w.atHandler x.address = false) →
      depth (stepAll w xs) < depth w) := by
  induction xs generalizing w with
  | nil => exact ⟨fun _ => rfl, fun h => absurd (fun _ hx => nomatch hx) h⟩
  | cons x xs ih =>
    by_cases hx : w.atReturn x.address = false ∧ w.atHandler x.address = false
    · have ht := silent_step_still hs.1 hx.1 hx.2
      obtain ⟨hstill, hshrink⟩ := ih hs.2
      simp only [at_congr ht, ht, depth_congr ht] at hstill hshrink
      refine ⟨fun h => hstill (fun y hy => h y (List.mem_cons_of_mem _ hy)), fun h => hshrink ?_⟩
      intro hrest
      apply h
      intro y hy
      cases hy with
      | head => exact hx
      | tail _ hy => exact hrest y hy
    · have hat : w.atReturn x.address = true ∨ w.atHandler x.address = true := by
        simpa only [not_and_or, Bool.not_eq_false] using hx
      refine ⟨fun h => absurd (h x List.mem_cons_self) hx, fun _ => ?_⟩
      have hle : depth (stepAll w (x :: xs)) ≤ depth (w.stepOn x).wrapper := silent_depth_le hs.2
      exact Nat.lt_of_le_of_lt hle ((silent_step_depth hs.1).2 hat)

/-- While disabled, silent steps leave the status and both stacks alone. -/
theorem silent_disabled {w : InterruptWrapper I} {xs : List (StepInput S Op)}
    (hd : w.status = .disabled) (hs : Silent w xs) : tracking (stepAll w xs) = tracking w :=
  (silent_run hs).1 fun x _ => not_at_of_not_fired (hasFired_of_disabled hd) x.address

/-- `enable` reads the tracked data only. -/
theorem enable_congr {w w' : InterruptWrapper I} (h : tracking w' = tracking w) :
    tracking w'.enable = tracking w.enable := by
  simp only [tracking, Prod.mk.injEq] at h
  obtain ⟨h1, h2, h3⟩ := h
  unfold enable isDisabled
  rw [h1, h3]
  split <;> simp [tracking, h1, h2, h3]

end MaskingLemmas

/-- The wrapper ends alike with and without the mask. -/
def MaskingTransparent (w : InterruptWrapper I) (xs : List (StepInput S Op)) : Prop :=
  tracking (stepAll w.disable xs).enable = tracking (stepAll w xs)

/-- For every reachable wrapper that is not disabled and every sequence of steps
during which `fire` returns `None`: masking the steps is transparent exactly when
no step is at the recorded return address or at the entry of the recorded handler. -/
theorem masking_transparent_iff (i : I) (nesting : Bool) (es : List (InterruptEvent S Op))
    (xs : List (StepInput S Op)) (hd : (reached i nesting es).status ≠ .disabled)
    (hplain : Silent (reached i nesting es) xs)
    (hmasked : Silent (reached i nesting es).disable xs) :
    MaskingTransparent (reached i nesting es) xs ↔
      ∀ x ∈ xs, (reached i nesting es).atReturn x.address = false ∧
        (reached i nesting es).atHandler x.address = false := by
  have hagree := agree_reached i nesting es
  generalize reached i nesting es = w at hd hplain hmasked hagree ⊢
  have hmask : tracking (stepAll w.disable xs).enable = tracking w := by
    rw [enable_congr (silent_disabled rfl hmasked), disable_enable hagree hd]
  obtain ⟨hstill, hshrink⟩ := silent_run hplain
  unfold MaskingTransparent
  rw [hmask]
  constructor
  · intro h
    by_contra hx
    have hlt := hshrink hx
    rw [depth_congr h.symm] at hlt
    exact Nat.lt_irrefl _ hlt
  · intro h
    exact (hstill h).symm

/-- A wrapper in its first handler, masked for one step elsewhere. -/
theorem masking_transparent_iff_elsewhere :
    MaskingTransparent (reached (⟨[some 0x20]⟩ : AnswerQueue) true [.step ⟨(), 0x10, ()⟩])
        [(⟨(), 0x30, ()⟩ : StepInput Unit Unit)] ↔
      ∀ x ∈ [(⟨(), 0x30, ()⟩ : StepInput Unit Unit)],
        (reached (⟨[some 0x20]⟩ : AnswerQueue) true
          [.step (⟨(), 0x10, ()⟩ : StepInput Unit Unit)]).atReturn x.address = false ∧
        (reached (⟨[some 0x20]⟩ : AnswerQueue) true
          [.step (⟨(), 0x10, ()⟩ : StepInput Unit Unit)]).atHandler x.address = false :=
  masking_transparent_iff _ _ _ _ (by decide)
    ⟨fun _ h => by cases h; rfl, trivial⟩ ⟨fun _ h => by cases h; rfl, trivial⟩

/-- The handler entry and the return of an invocation are both forgotten when
they happen under the mask. -/
theorem masked_return_forgotten :
    ¬ MaskingTransparent (reached (⟨[some 0x20]⟩ : AnswerQueue) true [.step ⟨(), 0x10, ()⟩])
      [(⟨(), 0x20, ()⟩ : StepInput Unit Unit), ⟨(), 0x10, ()⟩] := by
  unfold MaskingTransparent
  decide

end FuguexPeripheral.InterruptWrapper
