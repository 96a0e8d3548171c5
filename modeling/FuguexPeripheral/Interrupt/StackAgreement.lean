import FuguexPeripheral.Interrupt.Basic

/-!
# Status and return stack agree

The nesting depth of a wrapper is stored twice, in `Status::Fired(n)` and as the
length of `returns_stack`. `Agree` says that the two are the same whenever the
wrapper is not disabled; every path of the step, `enable` and `disable` keeps it
(`agree_apply`), so it holds in every state of every run (`agree_reached`).

`outstanding` holds the invocations of a run that have not returned, where the
innermost one returns at the address it branched away from. The return pop of the
wrapper is gated by `has_fired`, so a return under the mask is missed, and the next
`enable` rebuilds the status from a stack that still holds it.
`status_and_stack_agree_iff`: the count handed to `fire` is the number of invocations
that have not returned, all along a run, exactly when no `enable` follows such a return.
-/

namespace FuguexPeripheral.InterruptWrapper

variable {I S Op : Type*}

/-- The invariant between the status and the return stack. -/
def Agree (w : InterruptWrapper I) : Prop :=
  match w.status with
  | .disabled => True
  | .pending => w.returnsStack = []
  | .fired n => n = w.returnsStack.length ∧ 1 ≤ n

/-- What the wrapper knows about the invocations: the status and both stacks. -/
def tracking (w : InterruptWrapper I) : Status × List Address × List Address :=
  (w.status, w.handlerStack, w.returnsStack)

/-- The wrapper after a sequence of steps. -/
def stepAll [InterruptHandlerOverrider I S Op] (w : InterruptWrapper I)
    (xs : List (StepInput S Op)) : InterruptWrapper I :=
  xs.foldl (fun w x => (w.stepOn x).wrapper) w

/-! ## What one step does to the two stacks -/

namespace StackLemmas

theorem hasFired_iff {w : InterruptWrapper I} :
    w.hasFired = true ↔ ∃ n, w.status = .fired n := by
  unfold hasFired
  cases h : w.status <;> simp [Status.hasFired]

/-- A wrapper that is disabled or pending pops nothing. -/
theorem not_at_of_not_fired {w : InterruptWrapper I} (h : w.hasFired = false) (a : Address) :
    w.atReturn a = false ∧ w.atHandler a = false := by
  simp [atReturn, atHandler, h]

theorem hasFired_of_disabled {w : InterruptWrapper I} (h : w.status = .disabled) :
    w.hasFired = false := by
  rw [hasFired, h]
  rfl

theorem atReturn_iff {w : InterruptWrapper I} {a : Address} :
    w.atReturn a = true ↔ w.hasFired = true ∧ ∃ rest, w.returnsStack = a :: rest := by
  cases h : w.returnsStack <;> simp [atReturn, h]

theorem atHandler_iff {w : InterruptWrapper I} {a : Address} :
    w.atHandler a = true ↔ w.hasFired = true ∧ ∃ rest, w.handlerStack = a :: rest := by
  cases h : w.handlerStack <;> simp [atHandler, h]

/-- The two tests read the tracked data only. -/
theorem at_congr {w w' : InterruptWrapper I} (h : tracking w' = tracking w) (a : Address) :
    w'.atReturn a = w.atReturn a ∧ w'.atHandler a = w.atHandler a := by
  simp only [tracking, Prod.mk.injEq] at h
  obtain ⟨h1, h2, h3⟩ := h
  simp [atReturn, atHandler, hasFired, h1, h2, h3]

theorem popReturn_of_not {w : InterruptWrapper I} {a : Address} (h : w.atReturn a = false) :
    w.popReturn a = w := by
  simp [popReturn, h]

@[simp] theorem popReturn_handlerStack (w : InterruptWrapper I) (a : Address) :
    (w.popReturn a).handlerStack = w.handlerStack := by
  unfold popReturn; split <;> rfl

@[simp] theorem enable_returnsStack (w : InterruptWrapper I) :
    w.enable.returnsStack = w.returnsStack := by
  unfold enable; split <;> rfl

@[simp] theorem enable_handlerStack (w : InterruptWrapper I) :
    w.enable.handlerStack = w.handlerStack := by
  unfold enable; split <;> rfl

theorem status_unfire_disabled {s : Status} : s.unfire = .disabled ↔ s = .disabled := by
  cases s with
  | disabled => simp [Status.unfire]
  | pending => simp [Status.unfire]
  | fired n => match n with
    | 0 => simp [Status.unfire]
    | 1 => simp [Status.unfire]
    | n + 2 => simp [Status.unfire]

theorem popReturn_disabled {w : InterruptWrapper I} {a : Address} :
    (w.popReturn a).status = .disabled ↔ w.status = .disabled := by
  unfold popReturn
  split
  · exact status_unfire_disabled
  · exact Iff.rfl

end StackLemmas

open StackLemmas

section Step

variable [InterruptHandlerOverrider I S Op]

/-- What the overrider answers at a step that reaches it: the count is that of the
wrapper after the return pop. -/
def answerAt (w : InterruptWrapper I) (x : StepInput S Op) :
    Except InterruptError (Option Address) :=
  (InterruptHandlerOverrider.fire (w.popReturn x.address).interrupt
    (w.popReturn x.address).triggerCount x.state x.address x.operation).answer

/-- Everything a step can do, guards included: it stops at the handler pop
without calling `fire`, or it calls `fire` once and acts on the answer. -/
theorem stepOn_cases (w : InterruptWrapper I) (x : StepInput S Op) :
    ((w.popReturn x.address).atHandler x.address = true ∧ (w.stepOn x).call = none ∧
      (w.stepOn x).outcome = .ok ⟨.pass, false⟩ ∧
      (w.stepOn x).wrapper =
        { w.popReturn x.address with handlerStack := w.handlerStack.tail }) ∨
    ((w.popReturn x.address).atHandler x.address = false ∧
      (w.stepOn x).call = some ⟨(w.popReturn x.address).triggerCount, answerAt w x⟩ ∧ ∃ i,
      ((∃ e, answerAt w x = .error e ∧ (w.stepOn x).outcome = .error e ∧
          (w.stepOn x).wrapper = { w.popReturn x.address with interrupt := i }) ∨
        (answerAt w x = .ok none ∧ (w.stepOn x).outcome = .ok ⟨.pass, false⟩ ∧
          (w.stepOn x).wrapper = { w.popReturn x.address with interrupt := i }) ∨
        ∃ h, answerAt w x = .ok (some h) ∧ (w.stepOn x).outcome = .ok ⟨.branch 1 h, true⟩ ∧
          (w.stepOn x).wrapper =
            { w.popReturn x.address with interrupt := i }.pushHandler x.address h)) := by
  unfold stepOn hookArchitecturalStep answerAt
  dsimp only
  cases hh : (w.popReturn x.address).atHandler x.address with
  | true =>
    left
    rw [if_pos rfl]
    exact ⟨rfl, rfl, rfl, by rw [popReturn_handlerStack]⟩
  | false =>
    right
    rw [if_neg Bool.false_ne_true]
    unfold consult
    generalize InterruptHandlerOverrider.fire (w.popReturn x.address).interrupt
      (w.popReturn x.address).triggerCount x.state x.address x.operation = f
    obtain ⟨answer, i, state⟩ := f
    cases answer with
    | error e => exact ⟨rfl, rfl, i, .inl ⟨e, rfl, rfl, rfl⟩⟩
    | ok o =>
      cases o with
      | none => exact ⟨rfl, rfl, i, .inr (.inl ⟨rfl, rfl, rfl⟩)⟩
      | some h => exact ⟨rfl, rfl, i, .inr (.inr ⟨h, rfl, rfl, rfl⟩)⟩

end Step

/-! ## The invariant -/

namespace StackLemmas

/-- The invariant reads the tracked data only. -/
theorem agree_congr {w w' : InterruptWrapper I} (hs : w'.status = w.status)
    (hr : w'.returnsStack = w.returnsStack) : w'.Agree ↔ w.Agree := by
  unfold Agree
  rw [hs, hr]

theorem agree_popReturn {w : InterruptWrapper I} (h : w.Agree) (a : Address) :
    (w.popReturn a).Agree := by
  cases ha : w.atReturn a with
  | false => rwa [popReturn_of_not ha]
  | true =>
    obtain ⟨hf, rest, hr⟩ := atReturn_iff.mp ha
    obtain ⟨n, hn⟩ := hasFired_iff.mp hf
    rw [Agree, hn, hr] at h
    obtain ⟨hlen, -⟩ := h
    rw [popReturn, if_pos ha]
    cases rest with
    | nil =>
      subst hlen
      simp [Agree, hn, hr, Status.unfire]
    | cons b rest =>
      subst hlen
      simp [Agree, hn, hr, Status.unfire]

theorem agree_pushHandler {w : InterruptWrapper I} (h : w.Agree) (a handler : Address) :
    (w.pushHandler a handler).Agree := by
  unfold Agree at h ⊢
  cases hs : w.status with
  | disabled => simp [pushHandler, hs, Status.fire]
  | pending =>
    rw [hs] at h
    simp [pushHandler, hs, Status.fire, h]
  | fired n =>
    rw [hs] at h
    simp [pushHandler, hs, Status.fire, h.1]

theorem agree_enable {w : InterruptWrapper I} (h : w.Agree) : w.enable.Agree := by
  unfold enable
  split
  · cases hr : w.returnsStack with
    | nil => simp [Agree]
    | cons b rest => simp [Agree]
  · exact h

end StackLemmas

section Runs

variable [InterruptHandlerOverrider I S Op]

/-- One event keeps the agreement: the six paths of the step, `enable` and
`disable`. -/
theorem agree_apply {w : InterruptWrapper I} (h : w.Agree) (e : InterruptEvent S Op) :
    (w.apply e).Agree := by
  cases e with
  | enable => exact agree_enable h
  | disable => trivial
  | step x =>
    have hp := agree_popReturn h x.address
    rcases stepOn_cases w x with ⟨-, -, -, hw⟩ | ⟨-, -, i, h⟩
    · rw [apply, hw]
      exact (agree_congr rfl rfl).mpr hp
    · rcases h with ⟨e, -, -, hw⟩ | ⟨-, -, hw⟩ | ⟨handler, -, -, hw⟩
      · rw [apply, hw]
        exact (agree_congr rfl rfl).mpr hp
      · rw [apply, hw]
        exact (agree_congr rfl rfl).mpr hp
      · rw [apply, hw]
        exact agree_pushHandler ((agree_congr rfl rfl).mpr hp) x.address handler

theorem agree_reached (i : I) (nesting : Bool) (es : List (InterruptEvent S Op)) :
    (reached i nesting es).Agree := by
  refine (run_history i nesting es).invariant Agree ?_ rfl
  intro q e r hq hr
  rw [hr]
  exact agree_apply hq e

/-! ## The outstanding invocations of a run -/

/-- The step returns a `Branch`. -/
def Branches (w : InterruptWrapper I) (x : StepInput S Op) : Bool :=
  match (w.stepOn x).outcome with
  | .ok ⟨.branch _ _, _⟩ => true
  | _ => false

omit [InterruptHandlerOverrider I S Op] in
/-- The invocations that have not returned, the innermost first, once control is at
`address`: the innermost one returns at the address it branched away from, whatever the
status of the wrapper is. -/
def backAt (outstanding : List Address) (address : Address) : List Address :=
  if outstanding.head? = some address then outstanding.tail else outstanding

/-- What one event does to the invocations that have not returned. -/
def settle (outstanding : List Address) :
    InterruptWrapper I × InterruptEvent S Op → List Address
  | (w, .step x) =>
    if Branches w x then x.address :: backAt outstanding x.address
    else backAt outstanding x.address
  | _ => outstanding

/-- The invocations of a trace that have not returned, by the addresses alone. -/
def outstanding (tr : List (InterruptWrapper I × InterruptEvent S Op)) : List Address :=
  tr.foldl settle []

omit [InterruptHandlerOverrider I S Op] in
/-- A step at the last recorded return address of a wrapper that is disabled: the return
pop, gated by `has_fired`, does not see the return. -/
def MissesReturn (w : InterruptWrapper I) (x : StepInput S Op) : Prop :=
  w.status = .disabled ∧ w.returnsStack.head? = some x.address

omit [InterruptHandlerOverrider I S Op] in
/-- After a return that the wrapper misses it is not enabled again. -/
def KeepsReturns (tr : List (InterruptWrapper I × InterruptEvent S Op)) : Prop :=
  ∀ past q x rest, tr = past ++ (q, .step x) :: rest → MissesReturn q x →
    ∀ y ∈ rest, y.2 ≠ .enable

namespace StackLemmas

omit [InterruptHandlerOverrider I S Op] in
theorem backAt_length_le (os : List Address) (a : Address) : (backAt os a).length ≤ os.length := by
  unfold backAt
  split
  · simp
  · exact Nat.le_refl _

theorem popReturn_length (w : InterruptWrapper I) (a : Address) :
    (w.popReturn a).returnsStack.length + (w.atReturn a).toNat = w.returnsStack.length := by
  cases ha : w.atReturn a with
  | false => rw [popReturn_of_not ha]; rfl
  | true =>
    obtain ⟨-, rest, hr⟩ := atReturn_iff.mp ha
    rw [popReturn, if_pos ha, hr]
    rfl

omit [InterruptHandlerOverrider I S Op] in
/-- Except for a return that is missed, the pop goes by the address alone. -/
theorem popReturn_returnsStack {w : InterruptWrapper I} (h : w.Agree) {x : StepInput S Op}
    (hx : ¬ MissesReturn w x) :
    (w.popReturn x.address).returnsStack = backAt w.returnsStack x.address := by
  unfold popReturn backAt
  by_cases hhead : w.returnsStack.head? = some x.address
  · have hfired : w.hasFired = true := by
      unfold Agree at h
      cases hs : w.status with
      | disabled => exact absurd ⟨hs, hhead⟩ hx
      | pending =>
        rw [hs] at h
        rw [h] at hhead
        cases hhead
      | fired n => exact hasFired_iff.mpr ⟨n, hs⟩
    simp [atReturn, hfired, hhead]
  · simp [atReturn, hhead]

/-- A wrapper that is disabled pops no return. -/
theorem popReturn_of_disabled {w : InterruptWrapper I} (hd : w.status = .disabled) (a : Address) :
    w.popReturn a = w :=
  popReturn_of_not (not_at_of_not_fired (hasFired_of_disabled hd) a).1

/-- What a step does to the return stack, after its return pop. -/
theorem stepOn_returnsStack (w : InterruptWrapper I) (x : StepInput S Op) :
    (w.stepOn x).wrapper.returnsStack =
      if Branches w x then x.address :: (w.popReturn x.address).returnsStack
      else (w.popReturn x.address).returnsStack := by
  unfold Branches
  rcases stepOn_cases w x with ⟨-, -, ho, hw⟩ | ⟨-, -, i, h⟩
  · rw [ho, hw]
    rfl
  · rcases h with ⟨e, -, ho, hw⟩ | ⟨-, ho, hw⟩ | ⟨handler, -, ho, hw⟩
    · rw [ho, hw]
      rfl
    · rw [ho, hw]
      rfl
    · rw [ho, hw]
      rfl

theorem stepOn_disabled_status {w : InterruptWrapper I} (hd : w.status = .disabled)
    (x : StepInput S Op) : (w.stepOn x).wrapper.status = .disabled := by
  have hpop : (w.popReturn x.address).status = .disabled := popReturn_disabled.mpr hd
  rcases stepOn_cases w x with ⟨-, -, -, hw⟩ | ⟨-, -, i, h⟩
  · rw [hw]
    exact hpop
  · rcases h with ⟨e, -, -, hw⟩ | ⟨-, -, hw⟩ | ⟨handler, -, -, hw⟩
    · rw [hw]
      exact hpop
    · rw [hw]
      exact hpop
    · rw [hw]
      simp [pushHandler, hpop, Status.fire]

end StackLemmas

/-! ## Consequences -/

/-- `unfire` is applied to a positive count only. -/
theorem unfire_applied {w : InterruptWrapper I} (h : w.Agree) {a : Address}
    (ha : w.atReturn a = true) : ∃ n, w.status = .fired (n + 1) := by
  obtain ⟨hf, rest, hr⟩ := atReturn_iff.mp ha
  obtain ⟨n, hn⟩ := hasFired_iff.mp hf
  rw [Agree, hn, hr] at h
  exact ⟨rest.length, by rw [hn, h.1]; rfl⟩

/-- Outside `Disabled` the count for `fire` is the length of the return stack. -/
theorem triggerCount_eq {w : InterruptWrapper I} (h : w.Agree) (hd : w.status ≠ .disabled) :
    w.triggerCount = w.returnsStack.length := by
  unfold Agree at h
  unfold triggerCount
  cases hs : w.status with
  | disabled => exact absurd hs hd
  | pending => rw [hs] at h; rw [h]; rfl
  | fired n => rw [hs] at h; exact h.1

/-- The count a step hands to `fire`. -/
theorem call_count {w : InterruptWrapper I} {x : StepInput S Op} {call : FireCall}
    (hc : (w.stepOn x).call = some call) :
    call.count = (w.popReturn x.address).triggerCount := by
  rcases stepOn_cases w x with ⟨-, hn, -, -⟩ | ⟨-, hs, -⟩
  · rw [hn] at hc
    cases hc
  · rw [hs] at hc
    cases hc
    rfl

theorem disable_enable {w : InterruptWrapper I} (h : w.Agree) (hd : w.status ≠ .disabled) :
    w.disable.enable = w := by
  obtain ⟨i, status, handlers, returns, nesting⟩ := w
  unfold Agree at h
  cases status with
  | disabled => exact absurd rfl hd
  | pending =>
    subst h
    rfl
  | fired n =>
    obtain ⟨hn, hpos⟩ := h
    dsimp only at hn hpos
    have hne : returns.isEmpty = false := by
      cases returns with
      | nil => simp at hn; omega
      | cons => rfl
    simp [disable, enable, isDisabled, hne, hn]

/-! ## The count against the outstanding invocations -/

omit [InterruptHandlerOverrider I S Op] in
/-- No step of the trace misses a return. -/
def SeesReturns (tr : List (InterruptWrapper I × InterruptEvent S Op)) : Prop :=
  ∀ q x, (q, .step x) ∈ tr → ¬ MissesReturn q x

namespace StackLemmas

omit [InterruptHandlerOverrider I S Op] in
theorem keepsReturns_left {tr₁ tr₂ : List (InterruptWrapper I × InterruptEvent S Op)}
    (h : KeepsReturns (tr₁ ++ tr₂)) : KeepsReturns tr₁ := by
  intro past q x rest heq hx y hy
  refine h past q x (rest ++ tr₂) ?_ hx y (List.mem_append_left _ hy)
  rw [heq, List.append_assoc, List.cons_append]

omit [InterruptHandlerOverrider I S Op] in
theorem seesReturns_snoc {tr : List (InterruptWrapper I × InterruptEvent S Op)}
    {w : InterruptWrapper I} {e : InterruptEvent S Op} (h : SeesReturns tr)
    (he : ∀ x, e = .step x → ¬ MissesReturn w x) : SeesReturns (tr ++ [(w, e)]) := by
  intro q x hm
  rcases List.mem_append.mp hm with hm | hm
  · exact h q x hm
  · obtain ⟨rfl, rfl⟩ := Prod.mk.inj (List.mem_singleton.mp hm)
    exact he x rfl

theorem outstanding_snoc (tr : List (InterruptWrapper I × InterruptEvent S Op))
    (w : InterruptWrapper I) (e : InterruptEvent S Op) :
    outstanding (tr ++ [(w, e)]) = settle (outstanding tr) (w, e) := by
  simp [outstanding]

/-- What the run up to a state leaves in the return stack: the invocations that have not
returned, or, from a missed return to the next `enable`, more than these. -/
def Settled (tr : List (InterruptWrapper I × InterruptEvent S Op)) (w : InterruptWrapper I) :
    Prop :=
  (SeesReturns tr ∧ w.returnsStack = outstanding tr) ∨
    (¬ SeesReturns tr ∧ w.status = .disabled ∧
      (outstanding tr).length < w.returnsStack.length)

/-- A missed return leaves one recorded invocation too many. -/
theorem settled_missed {w : InterruptWrapper I} {x : StepInput S Op} {os : List Address}
    (hx : MissesReturn w x) (hos : w.returnsStack = os) :
    (settle os (w, .step x)).length < (w.stepOn x).wrapper.returnsStack.length := by
  obtain ⟨hd, hhead⟩ := hx
  rw [stepOn_returnsStack, popReturn_of_disabled hd, settle, backAt, ← hos, if_pos hhead]
  cases hr : w.returnsStack with
  | nil => simp [hr] at hhead
  | cons a rest => split <;> simp

/-- And a wrapper that stays disabled does not make up for it. -/
theorem settled_masked {w : InterruptWrapper I} (hd : w.status = .disabled) (x : StepInput S Op)
    {os : List Address} (hlt : os.length < w.returnsStack.length) :
    (settle os (w, .step x)).length < (w.stepOn x).wrapper.returnsStack.length := by
  have hback := backAt_length_le os x.address
  rw [stepOn_returnsStack, popReturn_of_disabled hd, settle]
  split
  · rw [List.length_cons, List.length_cons]
    omega
  · omega

theorem settled_step {tr : List (InterruptWrapper I × InterruptEvent S Op)}
    {w : InterruptWrapper I} (hagree : w.Agree) (hw : Settled tr w) (x : StepInput S Op) :
    Settled (tr ++ [(w, .step x)]) (w.stepOn x).wrapper := by
  unfold Settled
  rw [outstanding_snoc]
  rcases hw with ⟨hsees, hos⟩ | ⟨hmissed, hd, hlt⟩
  · by_cases hx : MissesReturn w x
    · exact .inr ⟨fun h => h w x (by simp) hx, stepOn_disabled_status hx.1 x,
        settled_missed hx hos⟩
    · refine .inl ⟨seesReturns_snoc hsees fun y hy => ?_, ?_⟩
      · cases hy
        exact hx
      · rw [stepOn_returnsStack, popReturn_returnsStack hagree hx, hos]
        rfl
  · exact .inr ⟨fun h => hmissed fun q y hm => h q y (List.mem_append_left _ hm),
      stepOn_disabled_status hd x, settled_masked hd x hlt⟩

omit [InterruptHandlerOverrider I S Op] in
theorem not_enabled_of_missed {tr : List (InterruptWrapper I × InterruptEvent S Op)}
    {w : InterruptWrapper I} (hmissed : ¬ SeesReturns tr)
    (h : KeepsReturns (tr ++ [(w, .enable)])) : False := by
  apply hmissed
  intro q x hm hx
  obtain ⟨past, rest, rfl⟩ := List.append_of_mem hm
  refine h past q x (rest ++ [(w, .enable)]) ?_ hx (w, .enable) (by simp) rfl
  rw [List.append_assoc, List.cons_append]

/-- The invariant of the runs that are not enabled after a missed return. -/
theorem settled_of_keeps {i : I} {nesting : Bool} {es : List (InterruptEvent S Op)}
    (h : KeepsReturns (history i nesting es)) :
    Settled (history i nesting es) (reached i nesting es) := by
  have hstart : (reached i nesting ([] : List (InterruptEvent S Op))).Agree :=
    agree_reached i nesting []
  refine (run_history i nesting es).history (fun tr w => KeepsReturns tr → w.Agree ∧ Settled tr w)
    (fun _ => ⟨hstart, .inl ⟨by simp [SeesReturns], rfl⟩⟩) ?_ h |>.2
  intro past q e t _ hq ht hkeeps
  obtain ⟨hagree, hsettled⟩ := hq (keepsReturns_left hkeeps)
  rw [ht]
  refine ⟨agree_apply hagree e, ?_⟩
  cases e with
  | step x => exact settled_step hagree hsettled x
  | enable =>
    rcases hsettled with ⟨hsees, hos⟩ | ⟨hmissed, -, -⟩
    · refine .inl ⟨seesReturns_snoc hsees (by simp), ?_⟩
      rw [outstanding_snoc, apply, enable_returnsStack, hos]
      rfl
    · exact (not_enabled_of_missed hmissed hkeeps).elim
  | disable =>
    unfold Settled
    rw [outstanding_snoc]
    rcases hsettled with ⟨hsees, hos⟩ | ⟨hmissed, -, hlt⟩
    · exact .inl ⟨seesReturns_snoc hsees (by simp), hos⟩
    · exact .inr ⟨fun h => hmissed fun q y hm => h q y (List.mem_append_left _ hm), rfl, hlt⟩

end StackLemmas

/-- Status and stack of the wrapper that a run leads to: they agree, `unfire` does not see
`Fired(0)`, outside `Disabled` a call of `fire` is given the number of invocations that
have not returned, and masking for no step at all restores the status. -/
structure Accurate (i : I) (nesting : Bool) (es : List (InterruptEvent S Op)) : Prop where
  status : (reached i nesting es).status = .disabled ∨
    ((reached i nesting es).status = .pending ∧ (reached i nesting es).returnsStack = []) ∨
    ∃ n, (reached i nesting es).status = .fired n ∧
      n = (reached i nesting es).returnsStack.length ∧ 1 ≤ n
  unfire : ∀ a, (reached i nesting es).atReturn a = true →
    ∃ n, (reached i nesting es).status = .fired (n + 1)
  count : (reached i nesting es).status ≠ .disabled → ∀ (x : StepInput S Op) (call : FireCall),
    ((reached i nesting es).stepOn x).call = some call →
    call.count = (backAt (outstanding (history i nesting es)) x.address).length
  remask : (reached i nesting es).status ≠ .disabled →
    (reached i nesting es).disable.enable.status = (reached i nesting es).status

namespace StackLemmas

/-- Everything but the count holds in every state of every run. -/
theorem accurate_of_count {i : I} {nesting : Bool} {es : List (InterruptEvent S Op)}
    (hcount : (reached i nesting es).status ≠ .disabled → ∀ (x : StepInput S Op)
      (call : FireCall), ((reached i nesting es).stepOn x).call = some call →
      call.count = (backAt (outstanding (history i nesting es)) x.address).length) :
    Accurate i nesting es := by
  have hagree : (reached i nesting es).Agree := agree_reached i nesting es
  refine ⟨?_, fun a ha => unfire_applied hagree ha, hcount, fun hd => by
    rw [disable_enable hagree hd]⟩
  unfold Agree at hagree
  cases hs : (reached i nesting es).status with
  | disabled => exact .inl rfl
  | pending => rw [hs] at hagree; exact .inr (.inl ⟨rfl, hagree⟩)
  | fired n => rw [hs] at hagree; exact .inr (.inr ⟨n, rfl, hagree⟩)

theorem accurate_of_keeps {i : I} {nesting : Bool} {es : List (InterruptEvent S Op)}
    (h : KeepsReturns (history i nesting es)) : Accurate i nesting es := by
  refine accurate_of_count fun hd x call hc => ?_
  have hagree : (reached i nesting es).Agree := agree_reached i nesting es
  rcases settled_of_keeps h with ⟨-, hos⟩ | ⟨-, hdisabled, -⟩
  · rw [call_count hc, triggerCount_eq (agree_popReturn hagree x.address) fun h =>
        hd (popReturn_disabled.mp h),
      popReturn_returnsStack hagree fun hx => hd hx.1, hos]
  · exact absurd hdisabled hd

omit [InterruptHandlerOverrider I S Op] in
/-- A wrapper waits for two addresses at most. -/
theorem exists_elsewhere (w : InterruptWrapper I) :
    ∃ a, w.atReturn a = false ∧ w.atHandler a = false := by
  refine ⟨w.returnsStack.headD 0 + w.handlerStack.headD 0 + 1, ?_, ?_⟩
  · cases hr : w.returnsStack with
    | nil => simp [atReturn, hr]
    | cons a rest =>
      have hne (n : Nat) : a ≠ a + n + 1 := Nat.ne_of_lt (Nat.lt_succ_of_le (Nat.le_add_right a n))
      simp [atReturn, hr, hne]
  · cases hh : w.handlerStack with
    | nil => simp [atHandler, hh]
    | cons a rest =>
      have hne (n : Nat) : a ≠ n + a + 1 := Nat.ne_of_lt (Nat.lt_succ_of_le (Nat.le_add_left a n))
      simp [atHandler, hh, hne]

/-- A wrapper that is waiting for neither a return nor a handler entry
at the address asks the overrider, with its own count. -/
theorem call_elsewhere {w : InterruptWrapper I} {x : StepInput S Op}
    (hreturn : w.atReturn x.address = false) (hhandler : w.atHandler x.address = false) :
    ∃ call, (w.stepOn x).call = some call ∧ call.count = w.triggerCount := by
  rcases stepOn_cases w x with ⟨hh, -⟩ | ⟨-, hc, -⟩
  · rw [popReturn_of_not hreturn, hhandler] at hh
    cases hh
  · exact ⟨_, hc, by rw [popReturn_of_not hreturn]⟩

/-- The first `enable` after a missed return: the next call of `fire` counts the
invocation that has returned. -/
theorem not_accurate_enabled {i : I} {nesting : Bool} {es : List (InterruptEvent S Op)}
    (h : KeepsReturns (history i nesting es)) {q : InterruptWrapper I} {x : StepInput S Op}
    (hm : (q, .step x) ∈ history i nesting es) (hx : MissesReturn q x) :
    ¬ Accurate i nesting (es ++ [.enable]) := by
  intro hacc
  have hreached : reached i nesting (es ++ [.enable]) = (reached i nesting es).enable := by
    simp [reached, apply]
  have hhistory : history i nesting (es ++ [.enable]) =
      history i nesting es ++ [(reached i nesting es, .enable)] := history_append ..
  have hcount := hacc.count
  rw [hreached, hhistory, outstanding_snoc] at hcount
  rcases settled_of_keeps h with ⟨hsees, -⟩ | ⟨-, hd, hlt⟩
  · exact hsees q x hm hx
  obtain ⟨b, hreturn, hhandler⟩ := exists_elsewhere (reached i nesting es).enable
  have hstatus : (reached i nesting es).enable.status ≠ .disabled := by
    simp only [enable, isDisabled, hd, beq_self_eq_true, if_true]
    split <;> simp
  obtain ⟨call, hcall, htold⟩ := call_elsewhere (x := { x with address := b }) hreturn hhandler
  have hwrong := hcount hstatus _ call hcall
  have hagree := agree_enable (agree_reached i nesting es)
  rw [htold, triggerCount_eq hagree hstatus, enable_returnsStack] at hwrong
  have hback := backAt_length_le (outstanding (history i nesting es)) b
  simp only [settle] at hwrong
  omega

end StackLemmas

/-- In every run: status and stack agree in every state reached, with the count for `fire`
the number of invocations that have not returned, exactly when no return that the wrapper
misses under the mask is followed by an `enable`. -/
theorem status_and_stack_agree_iff (i : I) (nesting : Bool) (es : List (InterruptEvent S Op)) :
    (∀ es', es' <+: es → Accurate i nesting es') ↔ KeepsReturns (history i nesting es) := by
  constructor
  · intro hall
    induction es using List.reverseRecOn with
    | nil =>
      intro past q x rest heq
      simp [history, Runs.trace] at heq
    | append_singleton es e ih =>
      have hkeeps := ih fun es' hes => hall es' (hes.trans (List.prefix_append es [e]))
      have hlast := hall _ (List.prefix_refl _)
      intro past q x rest heq hx y hy henable
      obtain rfl | ⟨rest, z, rfl⟩ := rest.eq_nil_or_concat
      · cases hy
      rw [history_append, List.concat_eq_append, ← List.cons_append, ← List.append_assoc] at heq
      obtain ⟨hpast, hz⟩ := List.append_inj' heq rfl
      rw [List.concat_eq_append] at hy
      rcases List.mem_append.mp hy with hy | hy
      · exact hkeeps past q x rest hpast hx y hy henable
      · have he : e = .enable := by
          cases hz
          rw [← henable, List.mem_singleton.mp hy]
        subst he
        exact not_accurate_enabled hkeeps (hpast ▸ by simp) hx hlast
  · rintro hkeeps es' ⟨rest, rfl⟩
    rw [history_append] at hkeeps
    exact accurate_of_keeps (keepsReturns_left hkeeps)

/-- A handler whose return is missed under the mask: the count stays one too high. -/
theorem masked_return_counted :
    ¬ ∀ es' : List (InterruptEvent Unit Unit),
      es' <+: [.step ⟨(), 0x10, ()⟩, .disable, .step ⟨(), 0x10, ()⟩, .enable] →
        Accurate (⟨[some 0x20]⟩ : AnswerQueue) true es' := by
  intro h
  have hcount := (h _ (List.prefix_refl _)).count (by decide) ⟨(), 0x30, ()⟩ _ rfl
  exact absurd hcount (by decide)

end Runs

end FuguexPeripheral.InterruptWrapper
