import FuguexPeripheral.SuperH.CompareMatchTimer

/-!
# What the SuperH timer does with a call

The interrupts are decided by six bits: for each channel whether its timer is matched
after the tick, and whether its interrupt is enabled and triggered. `Lines.arbitrate` is
that decision, and a step carries it out.

Results:
1. `hookArchitecturalStep_spec`: a step is its arbitration.
2. `hookMemoryWrite_frame`: a write leaves the handlers and the triggered flags alone.
3. `apply_step`, `apply_access`, `Reaches.handler`: the same for the events of a run.
-/

namespace FuguexPeripheral.SuperH

open ByteStore Backend Fallible

/-! ## Arbitration -/

/-- What a step decides on. -/
structure Lines where
  due₀ : Bool
  due₁ : Bool
  enabled₀ : Bool
  enabled₁ : Bool
  triggered₀ : Bool
  triggered₁ : Bool
  deriving DecidableEq, Repr

/-- The triggered flags after a step, and the channel whose handler it enters. -/
structure Verdict where
  triggered₀ : Bool
  triggered₁ : Bool
  entered : Option Channel
  deriving DecidableEq, Repr

namespace Lines

def due (l : Lines) : Channel → Bool
  | .cmt0 => l.due₀
  | .cmt1 => l.due₁

def enabled (l : Lines) : Channel → Bool
  | .cmt0 => l.enabled₀
  | .cmt1 => l.enabled₁

def triggered (l : Lines) : Channel → Bool
  | .cmt0 => l.triggered₀
  | .cmt1 => l.triggered₁

/-- The decision, where `rte` says whether the step is at the word `instRte`. -/
def arbitrate (l : Lines) (rte : Bool) : Verdict :=
  if !l.due₀ && !l.triggered₀ && !l.due₁ then ⟨l.triggered₀, l.triggered₁, none⟩
  else if !l.enabled₀ && !l.triggered₀ && !l.enabled₁ && !l.triggered₁ then
    ⟨l.triggered₀, l.triggered₁, none⟩
  else if l.triggered₀ then ⟨!rte, l.triggered₁, none⟩
  else if l.triggered₁ then ⟨l.due₀, !rte, none⟩
  else ⟨l.due₀, l.due₁, if l.due₀ then some .cmt0 else if l.due₁ then some .cmt1 else none⟩

end Lines

def Verdict.triggered (v : Verdict) : Channel → Bool
  | .cmt0 => v.triggered₀
  | .cmt1 => v.triggered₁

namespace CompareMatchTimer

def lines (p : CompareMatchTimer) : Lines :=
  { due₀ := p.backend.1.isDue
    due₁ := p.backend.2.isDue
    enabled₀ := p.interrupt.1.isEnabled
    enabled₁ := p.interrupt.2.isEnabled
    triggered₀ := p.interrupt.1.isTriggered
    triggered₁ := p.interrupt.2.isTriggered }

@[simp] theorem lines_due (p : CompareMatchTimer) (i : Channel) :
    p.lines.due i = (p.timer i).isDue := by
  cases i <;> rfl

@[simp] theorem lines_enabled (p : CompareMatchTimer) (i : Channel) :
    p.lines.enabled i = (p.int i).isEnabled := by
  cases i <;> rfl

@[simp] theorem lines_triggered (p : CompareMatchTimer) (i : Channel) :
    p.lines.triggered i = (p.int i).isTriggered := by
  cases i <;> rfl

/-- The peripheral after a tick with the triggered flags of the verdict. -/
def served (p : CompareMatchTimer) (v : Verdict) : CompareMatchTimer :=
  { p.tick with
    interrupt :=
      (p.interrupt.1.setTriggered v.triggered₀, p.interrupt.2.setTriggered v.triggered₁) }

@[simp] theorem isTriggered_served (p : CompareMatchTimer) (v : Verdict) (i : Channel) :
    ((p.served v).int i).isTriggered = v.triggered i := by
  cases i <;> rfl

/-- The address stored in the vector of a channel. -/
def routine (state : PCodeState .be) (i : Channel) : Address :=
  (state.readU32 i.vector).toNat

/-- The outcome of a verdict. -/
def outcome (state : PCodeState .be) (v : Verdict) : HookOutcome :=
  match v.entered with
  | none => ⟨.pass, false⟩
  | some i => ⟨.branch 1 (routine state i), false⟩

/-! ## The architectural step -/

namespace StepsLemmas

variable {emu : Machine} {p : CompareMatchTimer} {state : PCodeState .be}
  {address : Address} {r : Stepped}

theorem isIdle_tick (p : CompareMatchTimer) : p.tick.isIdle =
    (!p.lines.due₀ && !p.lines.triggered₀ && !p.lines.due₁) := by
  simp only [isIdle, tick, lines, Backend.CompareMatchTimer.isMatched_tick]
  cases p.interrupt.1.isTriggered <;> simp

theorem isDisabled_tick (p : CompareMatchTimer) : p.tick.isDisabled =
    (!p.lines.enabled₀ && !p.lines.triggered₀ && !p.lines.enabled₁ && !p.lines.triggered₁) :=
  rfl

theorem setTriggered_self (p : CompareMatchTimer) (i : Channel) :
    p.setTriggered i (p.int i).isTriggered = p := by
  cases i <;> rfl

theorem trigger_eq (p : CompareMatchTimer) (i : Channel) :
    p.trigger i = p.setTriggered i ((p.timer i).isMatched || (p.int i).isTriggered) := by
  unfold trigger
  cases hm : (p.timer i).isMatched with
  | true => simp [Backend.CompareMatchTimer.isEnabled_of_isMatched hm]
  | false => simp [setTriggered_self]

theorem goOn_eq_ok (h : p.goOn state = .ok r) : r.peripheral = p ∧ r.outcome = ⟨.pass, false⟩ := by
  cases h
  exact ⟨rfl, rfl⟩

theorem enter_eq_ok {i : Channel} (h : p.enter emu (.vector i.vector) state address = .ok r) :
    r.peripheral = p ∧ r.outcome = ⟨.branch 1 (routine state i), false⟩ := by
  obtain ⟨_, _, hr⟩ := exists_of_bind_eq_ok h
  cases hr
  exact ⟨rfl, rfl⟩

theorem dispatch_eq_ok (hh : p.handler = new.handler)
    (h : p.dispatch emu state address = .ok r) :
    r.peripheral = p ∧ r.outcome = outcome state ⟨p.interrupt.1.isTriggered,
      p.interrupt.2.isTriggered, if p.interrupt.1.isTriggered then some .cmt0
        else if p.interrupt.2.isTriggered then some .cmt1 else none⟩ := by
  unfold dispatch at h
  rw [hh] at h
  cases h₀ : p.interrupt.1.isTriggered with
  | true =>
    rw [h₀] at h
    exact enter_eq_ok (i := .cmt0) h
  | false =>
    cases h₁ : p.interrupt.2.isTriggered with
    | true =>
      rw [h₀, h₁] at h
      exact enter_eq_ok (i := .cmt1) h
    | false =>
      rw [h₀, h₁] at h
      exact goOn_eq_ok h

theorem leave_eq (p : CompareMatchTimer) (i : Channel) (instruction : UInt32)
    (h : (p.int i).isTriggered = true) :
    p.leave i instruction = p.setTriggered i (!(instruction == instRte)) := by
  unfold leave
  split
  next heq =>
    rw [heq]
    rfl
  next hne =>
    rw [beq_false_of_ne hne, Bool.not_false, ← h, setTriggered_self]

/-- Channel 0 becomes triggered when it is due. -/
theorem trigger_cmt0 (h : p.lines.triggered₀ = false) :
    p.tick.trigger .cmt0 = p.served ⟨p.lines.due₀, p.lines.triggered₁, none⟩ := by
  have hdue : (p.tick.timer .cmt0).isMatched = p.lines.due₀ :=
    Backend.CompareMatchTimer.isMatched_tick _
  have hint : (p.tick.int .cmt0).isTriggered = false := h
  rw [trigger_eq, hdue, hint, Bool.or_false]
  rfl

/-- Channel 1 likewise, whatever has become of channel 0. -/
theorem trigger_cmt1 (b : Bool) (h : p.lines.triggered₁ = false) :
    (p.served ⟨b, p.lines.triggered₁, none⟩).trigger .cmt1 =
      p.served ⟨b, p.lines.due₁, none⟩ := by
  have hdue : ((p.served ⟨b, p.lines.triggered₁, none⟩).timer .cmt1).isMatched = p.lines.due₁ :=
    Backend.CompareMatchTimer.isMatched_tick _
  have hint : ((p.served ⟨b, p.lines.triggered₁, none⟩).int .cmt1).isTriggered = false := h
  rw [trigger_eq, hdue, hint, Bool.or_false]
  rfl

end StepsLemmas

open StepsLemmas

/-- A step carries out its arbitration. -/
theorem hookArchitecturalStep_spec {emu : Machine} {p : CompareMatchTimer}
    {state : PCodeState .be} {address : Address} {r : Stepped} (hh : p.handler = new.handler)
    (h : p.hookArchitecturalStep emu state address = .ok r) :
    r.peripheral = p.served (p.lines.arbitrate (state.readU32 address == instRte)) ∧
      r.outcome = outcome state (p.lines.arbitrate (state.readU32 address == instRte)) := by
  have hkeep : p.served ⟨p.lines.triggered₀, p.lines.triggered₁, none⟩ = p.tick := rfl
  unfold hookArchitecturalStep at h
  dsimp only at h
  rw [isIdle_tick, isDisabled_tick, show p.tick.handler = new.handler from hh] at h
  unfold Lines.arbitrate
  split at h
  next hidle =>
    rw [if_pos hidle, hkeep]
    exact goOn_eq_ok h
  next hidle =>
    rw [if_neg hidle]
    split at h
    next hdis =>
      rw [if_pos hdis, hkeep]
      exact goOn_eq_ok h
    next hdis =>
      rw [if_neg hdis]
      change (if p.lines.triggered₀ = true then _ else _) = _ at h
      cases h₀ : p.lines.triggered₀ with
      | true =>
        rw [h₀, if_pos rfl, leave_eq p.tick .cmt0 _ h₀] at h
        exact goOn_eq_ok h
      | false =>
        rw [h₀, if_neg Bool.false_ne_true, trigger_cmt0 h₀] at h
        rw [if_neg Bool.false_ne_true]
        change (if p.lines.triggered₁ = true then _ else _) = _ at h
        cases h₁ : p.lines.triggered₁ with
        | true =>
          rw [h₁, if_pos rfl, leave_eq (p.served ⟨p.lines.due₀, true, none⟩) .cmt1 _ rfl] at h
          exact goOn_eq_ok h
        | false =>
          rw [if_neg (by rw [h₁]; exact Bool.false_ne_true), trigger_cmt1 _ h₁] at h
          exact dispatch_eq_ok hh h

/-! ## The memory hooks -/

namespace StepsLemmas

theorem writeChannel_frame {order : HashOrder} {p p' : CompareMatchTimer} {i : Channel}
    {address : Address} {writeVal : UInt32} (h : p.writeChannel order i address writeVal = .ok p') :
    p'.handler = p.handler ∧ ∀ j, (p'.int j).isTriggered = (p.int j).isTriggered := by
  unfold writeChannel at h
  split at h
  next =>
    obtain ⟨t, _, ht⟩ := exists_of_bind_eq_ok h
    cases ht
    constructor
    · cases i <;> rfl
    · intro j
      cases i <;> cases j <;> rfl
  next =>
    cases h
    exact ⟨rfl, fun _ => rfl⟩

end StepsLemmas

/-- A write leaves the handlers and the triggered flags alone. -/
theorem hookMemoryWrite_frame {order : HashOrder} {emu : Machine}
    {p p' : CompareMatchTimer} {address : Address} {value : List UInt8}
    (h : p.hookMemoryWrite order emu address value = .ok p') :
    p'.handler = p.handler ∧ ∀ j, (p'.int j).isTriggered = (p.int j).isTriggered := by
  obtain ⟨_, _, h⟩ := exists_of_bind_eq_ok h
  split at h
  next =>
    obtain ⟨writeVal, _, h⟩ := exists_of_bind_eq_ok h
    obtain ⟨q, hq, h⟩ := exists_of_bind_eq_ok h
    obtain ⟨hh₁, ht₁⟩ := writeChannel_frame hq
    obtain ⟨hh₂, ht₂⟩ := writeChannel_frame h
    exact ⟨hh₂.trans hh₁, fun j => (ht₂ j).trans (ht₁ j)⟩
  next =>
    cases h
    exact ⟨rfl, fun _ => rfl⟩

/-! ## Runs -/

section Runs

variable {order : HashOrder} {emu : Machine} {p p' : CompareMatchTimer}

/-- The verdict of a step at `address`. -/
def verdict (p : CompareMatchTimer) (state : PCodeState .be) (address : Address) : Verdict :=
  p.lines.arbitrate (state.readU32 address == instRte)

theorem apply_step {state : PCodeState .be} {address : Address} (hh : p.handler = new.handler)
    (h : p.apply order emu (.step state address) = .ok p') :
    p' = p.served (p.verdict state address) := by
  obtain ⟨r, hr, hp⟩ := exists_of_bind_eq_ok h
  cases hp
  exact (hookArchitecturalStep_spec hh hr).1

/-- An access leaves the handlers and the triggered flags alone. -/
theorem apply_access {e : HookEvent .be} (he : ∀ state address, e ≠ .step state address)
    (h : p.apply order emu e = .ok p') :
    p'.handler = p.handler ∧ ∀ j, (p'.int j).isTriggered = (p.int j).isTriggered := by
  cases e with
  | step state address => exact absurd rfl (he state address)
  | read state address size =>
    obtain ⟨_, _, hp⟩ := exists_of_bind_eq_ok h
    cases hp
    exact ⟨rfl, fun _ => rfl⟩
  | write state address size value => exact hookMemoryWrite_frame h

theorem Reaches.handler {tr : List (CompareMatchTimer × HookEvent .be)}
    (h : Reaches order emu tr p) : p.handler = new.handler := by
  refine Runs.Run.invariant (fun p => p.handler = new.handler) (fun q e q' hq hs => ?_) h rfl
  cases e with
  | step state address =>
    rw [apply_step hq hs]
    exact hq
  | read state address size => exact (apply_access (by simp) hs).1.trans hq
  | write state address size value => exact (apply_access (by simp) hs).1.trans hq

theorem Reaches.handler_of_mem {tr : List (CompareMatchTimer × HookEvent .be)}
    {q : CompareMatchTimer} {e : HookEvent .be} (h : Reaches order emu tr p)
    (hm : (q, e) ∈ tr) : q.handler = new.handler := by
  obtain ⟨_, _, _, _, hreach, _⟩ := h.mem hm
  exact Reaches.handler hreach

end Runs

end CompareMatchTimer

end FuguexPeripheral.SuperH
