import FuguexPeripheral.Interrupt.StackAgreement

/-!
# Non-nesting wrappers

`allow_nesting` is only read by `can_fire`, which the step never calls; what keeps
a wrapper from nesting is the overrider alone. `never_nests_iff`: a run of a
non-nesting wrapper keeps at most one pending invocation exactly when the
overrider declines at every step inside a handler.
-/

namespace FuguexPeripheral.InterruptWrapper

open StackLemmas

variable {I S Op : Type*} [InterruptHandlerOverrider I S Op]

/-- At most one invocation is pending in every state of the run. -/
def NeverNests (i : I) (nesting : Bool) (es : List (InterruptEvent S Op)) : Prop :=
  (∀ q e, (q, e) ∈ history i nesting es → q.returnsStack.length ≤ 1) ∧
  (reached i nesting es).returnsStack.length ≤ 1

/-- At every step that is inside a handler (an invocation is pending that does not
return in this step, and this is not the handler's entry) the overrider does not
answer with a handler. -/
def DeclinesInHandler (i : I) (nesting : Bool) (es : List (InterruptEvent S Op)) : Prop :=
  ∀ q x, (q, .step x) ∈ history i nesting es →
    (q.popReturn x.address).returnsStack ≠ [] →
    (q.popReturn x.address).atHandler x.address = false →
    ∀ h, answerAt q x ≠ .ok (some h)

namespace NestingLemmas

/-- A step that reaches the overrider and is answered with a handler records one
more invocation. -/
theorem push_length {w : InterruptWrapper I} {x : StepInput S Op} {h : Address}
    (hh : (w.popReturn x.address).atHandler x.address = false) (ha : answerAt w x = .ok (some h)) :
    (w.stepOn x).wrapper.returnsStack.length = (w.popReturn x.address).returnsStack.length + 1 := by
  rcases stepOn_cases w x with ⟨hh', -, -, -⟩ | ⟨-, -, i, hcases⟩
  · rw [hh] at hh'
    cases hh'
  · rcases hcases with ⟨e, he, -, -⟩ | ⟨he, -, -⟩ | ⟨h', -, -, hw⟩
    · rw [ha] at he
      cases he
    · rw [ha] at he
      cases he
    · rw [hw]
      rfl

/-- A step that is not answered with a handler records nothing new. -/
theorem no_push {w : InterruptWrapper I} {x : StepInput S Op}
    (h : (w.popReturn x.address).atHandler x.address = true ∨ ∀ h, answerAt w x ≠ .ok (some h)) :
    (w.stepOn x).wrapper.returnsStack = (w.popReturn x.address).returnsStack := by
  rcases stepOn_cases w x with ⟨-, -, -, hw⟩ | ⟨hh, -, i, hcases⟩
  · rw [hw]
  · have ha := h.resolve_left (by rw [hh]; exact Bool.false_ne_true)
    rcases hcases with ⟨e, -, -, hw⟩ | ⟨-, -, hw⟩ | ⟨handler, hans, -, -⟩
    · rw [hw]
    · rw [hw]
    · exact absurd hans (ha handler)

theorem popReturn_length_le (w : InterruptWrapper I) (a : Address) :
    (w.popReturn a).returnsStack.length ≤ w.returnsStack.length := by
  have := popReturn_length w a
  omega

/-- The step lemma: from at most one pending invocation to at most one. -/
theorem length_le_one_step {w : InterruptWrapper I} {x : StepInput S Op}
    (hw : w.returnsStack.length ≤ 1)
    (hdecl : (w.popReturn x.address).returnsStack ≠ [] →
      (w.popReturn x.address).atHandler x.address = false → ∀ h, answerAt w x ≠ .ok (some h)) :
    (w.stepOn x).wrapper.returnsStack.length ≤ 1 := by
  have hpop := popReturn_length_le w x.address
  cases hh : (w.popReturn x.address).atHandler x.address with
  | true =>
    rw [no_push (.inl hh)]
    omega
  | false =>
    by_cases hans : ∃ h, answerAt w x = .ok (some h)
    · obtain ⟨h, hans⟩ := hans
      rw [push_length hh hans]
      by_cases hr : (w.popReturn x.address).returnsStack = []
      · rw [hr]
        exact Nat.le_refl _
      · exact absurd hans (hdecl hr hh h)
    · rw [no_push (.inr fun h hh => hans ⟨h, hh⟩)]
      omega

/-- The run lemma: a run from a state with at most one pending invocation, in
which the overrider declines inside handlers, stays there. -/
theorem length_le_one_run {w t : InterruptWrapper I}
    {tr : List (InterruptWrapper I × InterruptEvent S Op)}
    (hrun : Runs.Run (fun w e w' => w' = w.apply e) w tr t) (hw : w.returnsStack.length ≤ 1)
    (hdecl : ∀ q x, (q, InterruptEvent.step x) ∈ tr → (q.popReturn x.address).returnsStack ≠ [] →
      (q.popReturn x.address).atHandler x.address = false → ∀ h, answerAt q x ≠ .ok (some h)) :
    (∀ q e, (q, e) ∈ tr → q.returnsStack.length ≤ 1) ∧ t.returnsStack.length ≤ 1 := by
  induction hrun with
  | nil _ => exact ⟨fun _ _ h => absurd h List.not_mem_nil, hw⟩
  | @cons w v t e tr hstep _ ih =>
    have hv : v.returnsStack.length ≤ 1 := by
      rw [hstep]
      cases e with
      | enable => simpa [apply] using hw
      | disable => exact hw
      | step x => exact length_le_one_step hw (hdecl w x List.mem_cons_self)
    obtain ⟨hall, hend⟩ := ih hv fun q x hm => hdecl q x (List.mem_cons_of_mem _ hm)
    refine ⟨fun q e' hm => ?_, hend⟩
    cases hm with
    | head => exact hw
    | tail _ hm => exact hall q e' hm

end NestingLemmas

open NestingLemmas

/-- For every overrider and every run, with or without `disable()`, of a wrapper
created with `allow_nesting = false`: there never are two pending invocations
exactly when the overrider declines at every step inside a handler. -/
theorem never_nests_iff (i : I) (es : List (InterruptEvent S Op)) :
    NeverNests i false es ↔ DeclinesInHandler i false es := by
  constructor
  · intro h q x hm hr hh handler hans
    obtain ⟨tr₁, tr₂, htr⟩ := List.append_of_mem hm
    have hlen := push_length hh hans
    have hpos := List.length_pos_of_ne_nil hr
    -- the state after the nested branch is the next one of the run, or its last
    have hrun := run_history i false es
    rw [htr] at hrun
    obtain ⟨-, t, ht, hrest⟩ := hrun.at
    have htlen : t.returnsStack.length ≤ 1 := by
      cases hrest with
      | nil => exact h.2
      | @cons _ _ _ e tr₂ hs hr =>
        refine h.1 t e ?_
        rw [htr]
        exact List.mem_append_right _ (List.mem_cons_of_mem _ List.mem_cons_self)
    rw [ht, apply_step] at htlen
    omega
  · intro h
    exact length_le_one_run (run_history i false es) (Nat.zero_le 1) h

/-- The second instruction of a handler may be interrupted again, although nesting
is not allowed. -/
theorem non_nesting_nests :
    ¬ NeverNests (⟨[some 0x20, some 0x30]⟩ : AnswerQueue) false
      [.step (⟨(), 0x10, ()⟩ : StepInput Unit Unit), .step ⟨(), 0x20, ()⟩,
        .step ⟨(), 0x24, ()⟩] := by
  intro h
  exact absurd h.2 (by decide)

end FuguexPeripheral.InterruptWrapper
